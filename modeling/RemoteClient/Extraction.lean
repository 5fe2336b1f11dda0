/-
# Auto-extract

What a call reads from the archives it may hand to the blocking pool, which writes it beside
the server while other calls are under way: it creates the file empty, appends to it, and may
stop at any point.  The next call prefers what it finds there to the archives.

So a call can be answered with a part of a file, and that part is then cached
(`torn_file_is_served`).  As long as every file that the calls for a path read is whole, they
all return the bytes of the archive (`whole_files_are_served`), and the loose file is whole
unless a write of it is under way or stopped short (`loose_file_settled`).
-/
import RemoteClient.Lib.FileWrite
import RemoteClient.Copies

namespace RemoteClient

open Exec Http

/-! ## Writing extracted files -/

/-- A write of an extracted file, and how much of it is done. -/
structure Writing where
  path : PathBuf
  content : List Byte
  done : ℕ

/-- The server and the writers of its blocking pool. -/
structure Extracting where
  server : Server
  writings : List Writing
  /-- Whether a write of a path stopped short since the file was last emptied: history. -/
  torn : PathBuf → Bool

/-- The disk with directories made where there was nothing. -/
def FileSystem.MakesDirectory (T T' : FileSystem) (path : PathBuf) : Prop :=
  T.node path = none ∧ T'.isFile path = false ∧ T'.read path = none

/-- The disk after a content was put in a file, in directories that may be new. -/
structure FileSystem.Put (T T' : FileSystem) (path : PathBuf) (content : List Byte) : Prop where
  isFile : T'.isFile path = true
  read : T'.read path = some content
  others : ∀ q, q ≠ path → T'.node q = T.node q ∨ T.MakesDirectory T' q

namespace Extracting

/-- Before the first call. -/
def start (cfg : Config) (disk : FileSystem) : Extracting :=
  ⟨Client.start cfg disk, [], fun _ => false⟩

/-- The steps of `write_extracted`. -/
inductive Writes : Extracting → Extracting → Prop
  | create {s : Extracting} {path : PathBuf} {content : List Byte}
      {pre post : List (PathBuf × List Byte)} {disk : FileSystem}
      (h : s.server.extractions = pre ++ (path, content) :: post)
      (hdisk : s.server.disk.Put disk path []) :
    Writes s {
      server := { s.server with disk := disk, extractions := pre ++ post }
      writings := s.writings ++ [⟨path, content, 0⟩]
      torn := Function.update s.torn path false }
  -- the directories or the file cannot be created
  | refuse {s : Extracting} {e : PathBuf × List Byte} {pre post : List (PathBuf × List Byte)}
      {disk : FileSystem} (h : s.server.extractions = pre ++ e :: post)
      (hdisk : ∀ q, disk.node q = s.server.disk.node q ∨ s.server.disk.MakesDirectory disk q) :
    Writes s { s with server := { s.server with disk := disk, extractions := pre ++ post } }
  | write {s : Extracting} {w : Writing} {pre post : List Writing} {file : List Byte} {k : ℕ}
      {disk : FileSystem} (h : s.writings = pre ++ w :: post)
      (hfile : s.server.disk.read w.path = some file) (hk : w.done + k ≤ w.content.length)
      (hdisk : s.server.disk.Put disk w.path
        (FileWrite.pwrite 0 file w.done (FileWrite.part w.content w.done k))) :
    Writes s { s with
      server := { s.server with disk := disk }
      writings := pre ++ { w with done := w.done + k } :: post }
  -- at the end, or after an error
  | stop {s : Extracting} {w : Writing} {pre post : List Writing}
      (h : s.writings = pre ++ w :: post) :
    Writes s { s with
      writings := pre ++ post
      torn := Function.update s.torn w.path
        (s.torn w.path || decide (w.done < w.content.length)) }

end Extracting

/-- A call for a path among others: calls for files with other keys, and whoever else stores
something under another key. -/
inductive Resolving (c : Client) (reqPath : Str) where
  | same (gameData : Bool)
  | other (path : Str) (gameData : Bool) (hkey : c.cacheKey path ≠ c.cacheKey reqPath)
      (hfile : safeJoin c.cfg.root path ≠ safeJoin c.cfg.root reqPath)
  | insert (key : Str) (content : List Byte) (hkey : key ≠ c.cacheKey reqPath)

namespace Client

variable (c : Client) (reqPath : Str)

/-- What a call does. -/
def runResolving : Resolving c reqPath → Work Resolved
  | .same gameData => c.resolveWith reqPath gameData
  | .other path gameData _ _ => c.resolveWith path gameData
  | .insert key content _ => do
    let _ ← Work.cacheInsert key content
    return .ok none

/-- Calls at once, and the writers between their steps. -/
def extractor : Machine Action Action.Answer Extracting (Resolving c reqPath) Resolved where
  perform s a := do
    let (r, server) ← s.server.perform c.platform.md5 a
    return (r, { s with server := server })
  env := Extracting.Writes
  main := c.runResolving reqPath

end Client

/-- A call for the path only reads files that are whole. -/
def ReadsWhole {c : Client} {reqPath : Str} (data : List Byte) :
    Resolving c reqPath → Extracting → Action → Bool
  | .same _, s, .read path =>
    decide (s.server.disk.read path = none ∨ s.server.disk.read path = some data)
  | _, _, _ => true

/-! ## One file of many -/

namespace Extracting

/-- Every write of the file has come to its end. -/
def Settled (s : Extracting) (path : PathBuf) : Prop :=
  s.torn path = false ∧ ∀ w ∈ s.writings, w.path = path → w.content.length ≤ w.done

/-- Whoever writes the file writes one content. -/
structure Agreed (path : PathBuf) (data : List Byte) (s : Extracting) : Prop where
  pending : ∀ e ∈ s.server.extractions, e.1 = path → e.2 = data
  writing : ∀ w ∈ s.writings, w.path = path → w.content = data

variable {s s' : Extracting} {path : PathBuf} {data : List Byte}

lemma read_eq_of_node {T T' : FileSystem} {q : PathBuf}
    (h : T'.node q = T.node q ∨ T.MakesDirectory T' q) : T'.read q = T.read q := by
  rcases h with h | ⟨hnode, -, hread⟩
  · rw [FileSystem.read, h]
    rfl
  · rw [hread, FileSystem.read, hnode]
    rfl

/-- How far the writers of one file are. -/
def offsets (writings : List Writing) (path : PathBuf) : List ℕ :=
  (writings.filter fun w => w.path = path).map Writing.done

lemma offsets_cons {w : Writing} {post : List Writing} :
    offsets (w :: post) path = if w.path = path then w.done :: offsets post path
      else offsets post path := by
  unfold offsets
  by_cases h : w.path = path
  · rw [if_pos h, List.filter_cons_of_pos (by simpa using h), List.map_cons]
  · rw [if_neg h, List.filter_cons_of_neg (by simpa using h)]

lemma offsets_append (pre post : List Writing) :
    offsets (pre ++ post) path = offsets pre path ++ offsets post path := by
  rw [offsets, List.filter_append, List.map_append]
  rfl

/-- What there is of one file. -/
def oneFile (s : Extracting) (path : PathBuf) : FileWrite.OneFile Byte :=
  ⟨s.server.disk.read path, offsets s.writings path, s.torn path⟩

/-- Seen from one file, a step of the writers is a step of a writer of that file or none. -/
lemma Writes.oneFile (h : Writes s s') (hagreed : s.Agreed path data) :
    s'.oneFile path = s.oneFile path ∨
      FileWrite.Step 0 data (s.oneFile path) (s'.oneFile path) := by
  unfold Extracting.oneFile
  cases h with
  | @create path' content pre post disk h hdisk =>
    dsimp only
    rw [offsets_append, offsets_cons]
    -- A creation empties the file it creates and no other.
    by_cases hpath : path' = path
    · subst hpath
      rw [if_pos rfl, hdisk.read, Function.update_self]
      exact .inr (.create _ _ _)
    · rw [if_neg hpath, Function.update_of_ne (Ne.symm hpath),
        read_eq_of_node (hdisk.others path (Ne.symm hpath))]
      exact .inl (by simp [offsets])
  | @refuse e pre post disk h hdisk =>
    refine .inl ?_
    rw [read_eq_of_node (hdisk path)]
  | @write w pre post file k disk h hfile hk hdisk =>
    dsimp only
    rw [h, offsets_append, offsets_append, offsets_cons, offsets_cons]
    by_cases hpath : w.path = path
    -- Writers of one file carry the same bytes, so a block of one is a block of all.
    · have hcontent := hagreed.writing w (by simp [h]) hpath
      subst hpath
      rw [if_pos rfl, if_pos rfl, hfile, hdisk.read]
      rw [hcontent] at hk ⊢
      exact .inr (.write _ _ _ _ _ _ hk)
    · refine .inl ?_
      rw [if_neg hpath, if_neg hpath, read_eq_of_node (hdisk.others path (Ne.symm hpath))]
  | @stop w pre post h =>
    dsimp only
    rw [h, offsets_append, offsets_append, offsets_cons]
    by_cases hpath : w.path = path
    · have hcontent := hagreed.writing w (by simp [h]) hpath
      subst hpath
      rw [if_pos rfl, Function.update_self, hcontent]
      exact .inr (.stop _ _ _ _ _)
    · rw [if_neg hpath, Function.update_of_ne (Ne.symm hpath)]
      exact .inl rfl

lemma mem_insert_middle {α : Type} {x y : α} {pre post : List α} (h : y ∈ pre ++ post) :
    y ∈ pre ++ x :: post :=
  ((List.sublist_cons_self x post).append_left pre).subset h

/-- The writers go on with what they have. -/
lemma Writes.agreed (h : Writes s s') (hagreed : s.Agreed path data) : s'.Agreed path data := by
  cases h with
  | @create path' content pre post disk h hdisk =>
    have hpending : ∀ e ∈ pre ++ (path', content) :: post, e.1 = path → e.2 = data :=
      h ▸ hagreed.pending
    refine ⟨fun e he => hpending e (mem_insert_middle he), fun w hw hpath => ?_⟩
    rcases List.mem_append.mp hw with hw | hw
    · exact hagreed.writing w hw hpath
    · obtain rfl := List.mem_singleton.mp hw
      exact hpending (path', content) (by simp) hpath
  | @refuse e pre post disk h hdisk =>
    refine ⟨fun e' he => hagreed.pending e' ?_, hagreed.writing⟩
    rw [h]
    exact mem_insert_middle he
  | @write w pre post file k disk h hfile hk hdisk =>
    refine ⟨hagreed.pending, fun w' hw hpath => ?_⟩
    have hwriting : ∀ w' ∈ pre ++ w :: post, w'.path = path → w'.content = data :=
      h ▸ hagreed.writing
    rcases List.mem_append.mp hw with hw | hw
    · exact hwriting w' (List.mem_append_left _ hw) hpath
    · rcases List.mem_cons.mp hw with rfl | hw
      · exact hwriting w (by simp) hpath
      · exact hwriting w' (by simp [hw]) hpath
  | @stop w pre post h =>
    refine ⟨hagreed.pending, fun w' hw => hagreed.writing w' ?_⟩
    rw [h]
    exact mem_insert_middle hw

/-- When every write has come to its end the file is whole, if it is there. -/
lemma Settled.whole (h : s.Settled path) (hagreed : s.Agreed path data)
    (hsound : FileWrite.Sound data (s.oneFile path)) :
    s.server.disk.read path = none ∨ s.server.disk.read path = some data := by
  refine hsound.whole h.1 fun done hdone => ?_
  obtain ⟨w, hw, rfl⟩ := List.mem_map.mp hdone
  obtain ⟨hmem, hpath⟩ := List.mem_filter.mp hw
  rw [← hagreed.writing w hmem (of_decide_eq_true hpath)]
  exact h.2 w hmem (of_decide_eq_true hpath)

end Extracting

/-! ## What calls pass on -/

/-- What is cached and what is read is good. -/
def GoodAnswer (Good : List Byte → Prop) : (a : Action) → a.Answer → Prop
  | .cacheGet _, hit => ∀ file, hit = some file → Good file.data
  | .read _, content => ∀ data, content = some data → Good data
  | .cacheInsert _ data, file => file.data = data
  | _, _ => True

/-- A call uses one key, stores what is good, and extracts what the archives have. -/
def GoodAction (c : Client) (reqPath key : Str) (Good : List Byte → Prop) : Action → Prop
  | .cacheGet key' => key' = key
  | .cacheInsert key' data => key' = key ∧ Good data
  | .extract path content =>
    safeJoin c.cfg.root reqPath = some path ∧ c.archiveData reqPath = .ok (some content)
  | .isFile _ => True
  | .read _ => True
  | .canonicalize _ => True
  | .logMissing _ => True
  | _ => False

/-- What a call returns is good. -/
def GoodResult (Good : List Byte → Prop) (r : Resolved) : Prop :=
  ∀ file source, r = .ok (some (file, source)) → Good file.data

/-- A program passes on what it gets. -/
abbrev Passes (c : Client) (reqPath : Str) (Good : List Byte → Prop) (p : Work Resolved) : Prop :=
  p.Within (GoodAnswer Good) (GoodAction c reqPath (c.cacheKey reqPath) Good) (GoodResult Good)

section

variable {c : Client} {reqPath : Str} {Good : List Byte → Prop}

lemma passes_nothing {r : Resolved} (h : ∀ x, r ≠ .ok (some x)) : Passes c reqPath Good (.ret r) :=
  fun _ _ heq => absurd heq (h _)

lemma passes_store {content : List Byte} (hgood : Good content) (source : Source) :
    Passes c reqPath Good (Client.store (c.cacheKey reqPath) content source) := by
  refine ⟨⟨rfl, hgood⟩, fun file hfile => ?_⟩
  intro file' source' heq
  obtain ⟨rfl, -⟩ := Prod.mk.inj (Option.some.inj (Except.ok.inj heq))
  rw [show file.data = content from hfile]
  exact hgood

lemma passes_missed : Passes c reqPath Good (Client.missed reqPath) :=
  ⟨trivial, fun _ _ => passes_nothing (by simp)⟩

lemma passes_resolveArchive (hgood : ∀ data, c.archiveData reqPath = .ok (some data) → Good data) :
    Passes c reqPath Good (c.resolveArchive (c.cacheKey reqPath) reqPath) := by
  unfold Client.resolveArchive
  cases hhit : c.archiveHit reqPath with
  | error stop => exact passes_nothing (by simp)
  | ok hit =>
    cases hit with
    | none => exact passes_missed
    | some found =>
      simp only
      cases hread : c.readFound found with
      | ok content =>
        have hdata : c.archiveData reqPath = .ok (some content) := by
          simp [Client.archiveData, hhit, hread]
        have hstore : Passes c reqPath Good
            (Client.store (c.cacheKey reqPath) content (.grf found.grf)) :=
          passes_store (hgood content hdata) _
        change Passes c reqPath Good (if c.cfg.clientAutoextract = true then _ else _)
        split
        -- With automatic extraction the bytes are handed over before the copy is stored.
        · refine Prog.Within.bind (P := fun _ => True) ?_ fun _ _ => hstore
          unfold Client.extractFile
          cases hjoin : safeJoin c.cfg.root reqPath with
          | none => trivial
          | some path => exact ⟨⟨hjoin, hdata⟩, fun _ _ => trivial⟩
        · exact hstore
      | error stop =>
        cases stop with
        | err _ => exact passes_missed
        | panic => exact passes_nothing (by simp)
        | hang => exact passes_nothing (by simp)

lemma passes_storeFile (path : PathBuf) (source : Source) {next : Work Resolved}
    (hnext : Passes c reqPath Good next) :
    Passes c reqPath Good (Client.storeFile (c.cacheKey reqPath) path source next) := by
  refine ⟨trivial, fun content hcontent => ?_⟩
  cases content with
  | some content => exact passes_store (hcontent content rfl) source
  | none => exact hnext

/-- A file is read if it is there. -/
lemma passes_file (path : PathBuf) (source : Source) {next : Work Resolved}
    (hnext : Passes c reqPath Good next) :
    Passes c reqPath Good (do
      if ← Work.isFile path then Client.storeFile (c.cacheKey reqPath) path source next
      else next) := by
  refine ⟨trivial, fun isFile _ => ?_⟩
  cases isFile with
  | true => exact passes_storeFile path source hnext
  | false => exact hnext

lemma passes_resolveOverride (hgood : ∀ data, c.archiveData reqPath = .ok (some data) → Good data)
    (gameData : Bool) :
    Passes c reqPath Good (c.resolveOverride (c.cacheKey reqPath) reqPath gameData) := by
  have hnext : Passes c reqPath Good
      (c.resolveGameData (c.cacheKey reqPath) reqPath gameData) := by
    cases gameData with
    | true => exact passes_resolveArchive hgood
    | false => exact passes_nothing (by simp)
  unfold Client.resolveOverride
  cases c.cfg.dataOverridePath.bind fun dir => safeJoin dir (stripLeadingData reqPath) with
  | none => exact hnext
  | some path => exact passes_file path .dataOverride hnext

lemma passes_confinedFile (root : PathBuf) (rel : Str) :
    (Client.confinedFile root rel).Within (GoodAnswer Good)
      (GoodAction c reqPath (c.cacheKey reqPath) Good) fun _ => True := by
  unfold Client.confinedFile
  cases safeJoin root rel with
  | none => trivial
  | some candidate =>
    refine ⟨trivial, fun base _ => ?_⟩
    cases base with
    | none => trivial
    | some base =>
      refine ⟨trivial, fun file _ => ?_⟩
      cases file with
      | none => trivial
      | some file =>
        change Prog.Within _ _ _ (if base.isPrefixOf file then _ else _)
        split
        · refine ⟨trivial, fun isFile _ => ?_⟩
          cases isFile <;> trivial
        · trivial

lemma passes_resolveClientDirectory
    (hgood : ∀ data, c.archiveData reqPath = .ok (some data) → Good data) (gameData : Bool) :
    Passes c reqPath Good (c.resolveClientDirectory (c.cacheKey reqPath) reqPath gameData) := by
  have hnext := passes_resolveOverride hgood gameData
  unfold Client.resolveClientDirectory
  cases (c.clientDirectory reqPath).filter fun _ => gameData with
  | none => exact hnext
  | some x =>
    refine (passes_confinedFile x.1 x.2).bind fun found _ => ?_
    cases found with
    | some path => exact passes_storeFile path .clientDirectory hnext
    | none => exact hnext

/-- **A call passes on what it gets from the cache, the disk and the archives.** -/
lemma passes_resolveWith (hgood : ∀ data, c.archiveData reqPath = .ok (some data) → Good data)
    (gameData : Bool) : Passes c reqPath Good (c.resolveWith reqPath gameData) := by
  unfold Client.resolveWith
  cases publicAssetPath reqPath with
  | false => exact passes_nothing (by simp)
  | true =>
    cases safeJoin c.cfg.root reqPath with
    | none => exact passes_nothing (by simp)
    | some path =>
      have hlocal : Passes c reqPath Good
          (c.resolveLocal (c.cacheKey reqPath) reqPath path gameData) :=
        passes_file path .localFile (passes_resolveClientDirectory hgood gameData)
      cases gameData with
      | false => exact hlocal
      | true =>
        refine ⟨rfl, fun hit hhit => ?_⟩
        cases hit with
        | some file =>
          intro file' source heq
          obtain ⟨rfl, -⟩ := Prod.mk.inj (Option.some.inj (Except.ok.inj heq))
          exact hhit file rfl
        | none => exact hlocal

end

/-! ## One action of a call -/

section

variable {c : Client} {path key : Str} {Good : List Byte → Prop}
  {Origin : Str → List Byte → Prop} {s s' : Server} {md5 : List Byte → Vector Byte 16}

/-- What an action of a call does to the server: the copies keep their origin, and what the
archives have may be handed to the blocking pool. -/
lemma perform_good (hOrigin : ∀ data, Origin key data ↔ Good data)
    (h : Holds s.disk Origin s) {a : Action} (ha : GoodAction c path key Good a)
    (hread : ∀ file data, a = .read file → s.disk.read file = some data → Good data)
    {r : a.Answer} (hperform : s.perform md5 a = .ok (r, s')) :
    Holds s'.disk Origin s' ∧ GoodAnswer Good a r ∧ s'.disk = s.disk ∧
      ∀ e ∈ s'.extractions, e ∈ s.extractions ∨
        safeJoin c.cfg.root path = some e.1 ∧ c.archiveData path = .ok (some e.2) := by
  -- Only `extract` hands anything over; what the others leave is settled by their copies alone.
  have hstored : Stores Origin a →
      Holds s'.disk Origin s' ∧ OnDisk s.disk a r ∧ s'.disk = s.disk := by
    intro hstores
    obtain ⟨r', t, hok, hr, ht⟩ := holds_perform md5 (fun _ _ h => h) s a h hstores
    obtain ⟨rfl, rfl⟩ := Prod.mk.inj (Except.ok.inj (hok.symm.trans hperform))
    exact ⟨ht.disk ▸ ht, hr, ht.disk⟩
  cases a with
  | cacheGet key' =>
    obtain rfl := ha
    obtain ⟨rfl, rfl⟩ := Prod.mk.inj (Except.ok.inj hperform)
    refine ⟨h.get _, fun file hfile => ?_, rfl, fun e he => .inl he⟩
    exact (hOrigin _).mp (h.copy (congrArg (Option.map CachedFile.data) hfile))
  | cacheInsert key' data =>
    obtain ⟨rfl, hgood⟩ := ha
    obtain ⟨hholds, hr, hdisk⟩ := hstored ((hOrigin data).mpr hgood)
    obtain ⟨⟨file, cache⟩, -, hret⟩ := bind_eq_ok.mp hperform
    obtain ⟨-, rfl⟩ := Prod.mk.inj (Except.ok.inj hret)
    exact ⟨hholds, hr, hdisk, fun e he => .inl he⟩
  | read file =>
    obtain ⟨hholds, hr, hdisk⟩ := hstored trivial
    obtain ⟨-, rfl⟩ := Prod.mk.inj (Except.ok.inj hperform)
    exact ⟨hholds, fun data hdata => hread file data rfl (hr.symm.trans hdata), hdisk,
      fun e he => .inl he⟩
  | isFile file =>
    obtain ⟨hholds, -, hdisk⟩ := hstored trivial
    obtain ⟨-, rfl⟩ := Prod.mk.inj (Except.ok.inj hperform)
    exact ⟨hholds, trivial, hdisk, fun e he => .inl he⟩
  | canonicalize file =>
    obtain ⟨hholds, -, hdisk⟩ := hstored trivial
    obtain ⟨-, rfl⟩ := Prod.mk.inj (Except.ok.inj hperform)
    exact ⟨hholds, trivial, hdisk, fun e he => .inl he⟩
  | logMissing _ =>
    obtain ⟨hholds, -, hdisk⟩ := hstored trivial
    obtain ⟨-, rfl⟩ := Prod.mk.inj (Except.ok.inj hperform)
    exact ⟨hholds, trivial, hdisk, fun e he => .inl he⟩
  | extract file content =>
    obtain ⟨hholds, -, hdisk⟩ := hstored trivial
    obtain ⟨-, rfl⟩ := Prod.mk.inj (Except.ok.inj hperform)
    refine ⟨hholds, trivial, hdisk, fun e he => ?_⟩
    rcases List.mem_append.mp he with he | he
    · exact .inl he
    · obtain rfl := List.mem_singleton.mp he
      exact .inr ha
  | addEncoding | slotGet | slotInit | metadata => exact ha.elim

end

/-! ## Whole files -/

section

variable {c : Client} {reqPath : Str} {path : PathBuf} {data : List Byte}

/-- The server's part of an action. -/
lemma extractor_perform {s s' : Extracting} {a : Action} {r : a.Answer}
    (h : (c.extractor reqPath).perform s a = .ok (r, s')) :
    ∃ server, s.server.perform c.platform.md5 a = .ok (r, server) ∧
      s' = { s with server := server } := by
  obtain ⟨⟨r', server⟩, hperform, hret⟩ := bind_eq_ok.mp h
  obtain ⟨rfl, rfl⟩ := Prod.mk.inj (Except.ok.inj hret)
  exact ⟨server, hperform, rfl⟩

/-- What everyone keeps about the loose file of a path. -/
structure Placed (path : PathBuf) (data : List Byte) (s : Extracting) : Prop where
  holds : Holds s.server.disk (fun _ _ => True) s.server
  agreed : s.Agreed path data
  sound : FileWrite.Sound data (s.oneFile path)

lemma Extracting.Writes.holds {s s' : Extracting} {Origin : Str → List Byte → Prop}
    (h : s.Writes s') (hs : Holds s.server.disk Origin s.server) :
    Holds s'.server.disk Origin s'.server := by
  cases h with
  | create | refuse | write => exact ⟨rfl, hs.sound, hs.cached⟩
  | stop => exact hs

lemma Extracting.Writes.placed {s s' : Extracting} (h : s.Writes s') (hs : Placed path data s) :
    Placed path data s' := by
  refine ⟨h.holds hs.holds, h.agreed hs.agreed, ?_⟩
  rcases h.oneFile hs.agreed with heq | hstep
  · rw [heq]
    exact hs.sound
  · exact hstep.sound hs.sound

/-- The promise about the loose file. -/
def placedContract (c : Client) (reqPath : Str) (path : PathBuf) (data : List Byte) :
    Contract (c.extractor reqPath) where
  inv := Placed path data
  rel _ _ := True
  may _ _ := True
  refl _ := trivial
  trans _ _ := trivial
  env hs h := ⟨Extracting.Writes.placed h hs, trivial⟩

lemma placed_perform {q : Str} (hq : ∀ content, safeJoin c.cfg.root q = some path →
      c.archiveData q = .ok (some content) → content = data) {s s' : Extracting} {a : Action}
    (hs : Placed path data s) {key : Str} (ha : GoodAction c q key (fun _ => True) a) {r : a.Answer}
    (hperform : (c.extractor reqPath).perform s a = .ok (r, s')) :
    Placed path data s' ∧ GoodAnswer (fun _ => True) a r := by
  obtain ⟨server, hserver, rfl⟩ := extractor_perform hperform
  obtain ⟨hholds, hr, hdisk, hextractions⟩ :=
    perform_good (fun _ => Iff.rfl) hs.holds ha (fun _ _ _ _ => trivial) hserver
  refine ⟨⟨hholds, ⟨fun e he hpath => ?_, hs.agreed.writing⟩, ?_⟩, hr⟩
  · rcases hextractions e he with hold | ⟨hjoin, hcontent⟩
    · exact hs.agreed.pending e hold hpath
    · exact hq e.2 (hpath ▸ hjoin) hcontent
  · change FileWrite.Sound data ⟨server.disk.read path, _, _⟩
    rw [hdisk]
    exact hs.sound

lemma safe_placed (hjoin : safeJoin c.cfg.root reqPath = some path)
    (hdata : c.archiveData reqPath = .ok (some data)) (job : Resolving c reqPath) (s : Extracting) :
    (placedContract c reqPath path data).Safe (fun _ _ => True) (c.runResolving reqPath job) s := by
  have hsame : ∀ content, safeJoin c.cfg.root reqPath = some path →
      c.archiveData reqPath = .ok (some content) → content = data := fun content _ hcontent =>
    Option.some.inj (Except.ok.inj (hcontent.symm.trans hdata))
  have hsafe : ∀ (q key : Str) {P : Resolved → Prop} {p : Work Resolved},
      (∀ content, safeJoin c.cfg.root q = some path →
        c.archiveData q = .ok (some content) → content = data) →
      p.Within (GoodAnswer fun _ => True) (GoodAction c q key fun _ => True) P →
      (placedContract c reqPath path data).Safe (fun _ _ => True) p s := by
    intro q key P p hq hp
    refine (Contract.Safe.of_within (fun a ha s hs => ⟨trivial, fun r s' hperform => ?_⟩)
      hp).mono fun _ _ _ _ => trivial
    obtain ⟨hs', hr⟩ := placed_perform hq hs ha hperform
    exact ⟨hs', trivial, hr⟩
  cases job with
  | same gameData => exact hsafe _ _ hsame (passes_resolveWith (fun _ _ => trivial) gameData)
  | other q gameData hkey hfile =>
    exact hsafe _ _ (fun content hq => absurd (hq.trans hjoin.symm) hfile)
      (passes_resolveWith (fun _ _ => trivial) gameData)
  | insert key content hkey =>
    exact hsafe reqPath key hsame (P := fun _ => True)
      ⟨⟨rfl, trivial⟩, fun _ _ => trivial⟩

/-- **The loose file is whole once it is settled**, in every run that starts without it. -/
lemma loose_file_settled (hjoin : safeJoin c.cfg.root reqPath = some path)
    (hdata : c.archiveData reqPath = .ok (some data)) {disk : FileSystem}
    (hnone : disk.node path = none)
    {pool : Pool Action Action.Answer Extracting (Resolving c reqPath) Resolved}
    (h : (c.extractor reqPath).Reachable (Extracting.start c.cfg disk) pool)
    (hsettled : pool.state.Settled path) :
    pool.state.server.disk.read path = none ∨ pool.state.server.disk.read path = some data := by
  have hread : disk.read path = none := by
    rw [FileSystem.read, hnone]
    rfl
  have hstart : Placed path data (Extracting.start c.cfg disk) := by
    refine ⟨(holds_start c.cfg disk).mono fun _ _ _ => trivial, ⟨?_, ?_⟩, ?_⟩
    · exact fun e he => absurd he List.not_mem_nil
    · exact fun w hw => absurd hw List.not_mem_nil
    · intro file hfile
      exact absurd (hread.symm.trans hfile) (by simp)
  have hplaced : Placed path data pool.state :=
    (h.safe (placedContract c reqPath path data) (fun _ _ _ _ _ _ => trivial)
      (fun job s _ => safe_placed hjoin hdata job s) hstart).1
  exact hsettled.whole hplaced.agreed hplaced.sound

/-! ## Whole answers -/

/-- The copies of a path are the archive's. -/
def ArchiveCopy (c : Client) (reqPath : Str) (data : List Byte) (key : Str) (copy : List Byte) :
    Prop :=
  key = c.cacheKey reqPath → copy = data

/-- The promise about the cache, when the calls for the path read whole files. -/
def copyContract (c : Client) (reqPath : Str) (data : List Byte) :
    Contract ((c.extractor reqPath).guarded (ReadsWhole data)) where
  inv s := Holds s.server.disk (ArchiveCopy c reqPath data) s.server
  rel _ _ := True
  may _ _ := True
  refl _ := trivial
  trans _ _ := trivial
  env hs h := ⟨Extracting.Writes.holds h hs, trivial⟩

/-- What a call promises about its answer: a call for the path returns the archive's bytes. -/
def ServesWhole (data : List Byte) : Resolving c reqPath → Resolved → Prop
  | .same _, r => GoodResult (fun copy => copy = data) r
  | _, _ => True

lemma safe_whole (hdata : c.archiveData reqPath = .ok (some data)) (job : Resolving c reqPath)
    (s : Extracting) :
    (copyContract c reqPath data).Safe (fun r _ => ServesWhole data job r)
      ((c.runResolving reqPath job).tag job) s := by
  -- The three kinds of calls differ only in the copies they may store and the files they may read.
  have hsafe : ∀ (q key : Str) (Good : List Byte → Prop) {P : Resolved → Prop}
      {p : Work Resolved}, (∀ copy, ArchiveCopy c reqPath data key copy ↔ Good copy) →
      (∀ s file copy, ReadsWhole data job s (.read file) = true →
        s.server.disk.read file = some copy → Good copy) →
      p.Within (GoodAnswer Good) (GoodAction c q key Good) P →
      (copyContract c reqPath data).Safe (fun r _ => P r) (p.tag job) s := by
    intro q key Good P p hcopy hread hp
    refine Contract.Safe.of_within (fun x hx s hs => ⟨trivial, fun r s' hperform => ?_⟩)
      (hp.tag job)
    obtain ⟨hok, hperform⟩ := Machine.perform_guarded hperform
    obtain ⟨job', a⟩ := x
    obtain ⟨rfl, ha⟩ := hx
    obtain ⟨server, hserver, rfl⟩ := extractor_perform hperform
    obtain ⟨hholds, hr, -⟩ := perform_good hcopy hs ha (fun file copy hfile hcontent => by
      subst hfile
      exact hread s file copy hok hcontent) hserver
    exact ⟨hholds, trivial, hr⟩
  cases job with
  | same gameData =>
    refine hsafe reqPath (c.cacheKey reqPath) (fun copy => copy = data) ?_ ?_
      (passes_resolveWith ?_ gameData)
    · exact fun copy => ⟨fun h => h rfl, fun h _ => h⟩
    · intro s file copy hwhole hcopy
      rcases of_decide_eq_true hwhole with hnone | hsome
      · exact absurd (hnone.symm.trans hcopy) (by simp)
      · exact Option.some.inj (hcopy.symm.trans hsome)
    · exact fun content hcontent =>
        Option.some.inj (Except.ok.inj (hcontent.symm.trans hdata))
  | other q gameData hkey hfile =>
    -- A call with another key cannot store a copy for the path, whatever it reads.
    refine (hsafe q (c.cacheKey q) (fun _ => True) ?_ (fun _ _ _ _ _ => trivial)
      (passes_resolveWith (fun _ _ => trivial) gameData)).mono fun _ _ _ _ => trivial
    exact fun copy => iff_true_intro fun heq => absurd heq hkey
  | insert key content hkey =>
    refine hsafe reqPath key (fun _ => True) ?_ (fun _ _ _ _ _ => trivial)
      (P := fun _ => True) ⟨⟨rfl, trivial⟩, fun _ _ => trivial⟩
    exact fun copy => iff_true_intro fun heq => absurd heq hkey

/-- **Whole files are served whole.**  Take a path that the archives have, with nothing beside
the server under its name, and a run of calls, extractions, insertions and evictions in any
order, in which the calls for the path only read files that cannot be read or have exactly the
bytes of the archive.  Then every call for the path that returns a file returns these bytes; and
the loose file is one of those, unless a write of it is under way or stopped short. -/
theorem whole_files_are_served (hjoin : safeJoin c.cfg.root reqPath = some path)
    (hdata : c.archiveData reqPath = .ok (some data)) {disk : FileSystem}
    (hnone : disk.node path = none)
    {pool : Pool (Resolving c reqPath × Action) (fun x => x.2.Answer) Extracting
      (Resolving c reqPath) Resolved}
    (h : ((c.extractor reqPath).guarded (ReadsWhole data)).Reachable
      (Extracting.start c.cfg disk) pool) :
    (∀ gameData file source,
      (Resolving.same gameData, .ret (.ok (some (file, source)))) ∈ pool.threads →
        file.data = data) ∧
    (pool.state.Settled path →
      pool.state.server.disk.read path = none ∨ pool.state.server.disk.read path = some data) := by
  constructor
  · intro gameData file source hdone
    have hstart : (copyContract c reqPath data).inv (Extracting.start c.cfg disk) :=
      (holds_start c.cfg disk).mono fun _ _ h => h.elim
    have hpost : ServesWhole data (Resolving.same gameData : Resolving c reqPath)
        (.ok (some (file, source))) :=
      h.post (copyContract c reqPath data) (fun _ _ _ _ _ h => h)
        (fun job s _ => safe_whole hdata job s) hstart hdone
    exact hpost file source rfl
  · obtain ⟨threads, hreach, -⟩ := h.unguarded
    exact loose_file_settled hjoin hdata hnone hreach

end

/-! ## A torn file -/

/-- A server that extracts what it reads from its archive of one file. -/
def extractClient : Client :=
  .new sampleClient.platform { sampleClient.cfg with
    clientAutoextract := true
    remoteGrfData := true
    autoextract_off := fun h => absurd h (by decide) } [storedGrf sampleName [1]]

def emptyDisk : FileSystem := ⟨fun _ => none, fun _ => none⟩

/-- The disk with an empty file, just created. -/
def createdDisk : FileSystem where
  node := fun path => if path = [['s'], sampleName] then
    some (⟨false, true, 0, 0⟩, some []) else none
  canonicalize := fun _ => none

lemma extractClient_hit : extractClient.archiveHit sampleName = .ok (some (storedFile sampleName)) := by
  have hlookup : AssetIndex.lookup .ascii (AssetIndex.build .ascii [storedGrf sampleName [1]])
      sampleName = .ok (some (storedFile sampleName)) := by
    rw [AssetIndex.lookup_eq]
    decide
  unfold Client.archiveHit
  change (AssetIndex.lookup .ascii (AssetIndex.build .ascii [storedGrf sampleName [1]])
      sampleName >>= _) = _
  rw [hlookup]
  rfl

lemma extractClient_read : extractClient.readFound (storedFile sampleName) = .ok [1] := rfl

lemma extractClient_data : extractClient.archiveData sampleName = .ok (some [1]) := by
  unfold Client.archiveData
  rw [extractClient_hit]
  simp only [extractClient_read]

/-- A call asks the cache and then the disk. -/
lemma extract_call : extractClient.resolveWith sampleName true = .act (.cacheGet sampleName)
    fun hit => match hit with
      | some hit => .ret (.ok (some (hit, .cache)))
      | none => extractClient.resolveLocal sampleName sampleName [['s'], sampleName] true := by
  have hpublic : publicAssetPath sampleName = true := by decide
  have hjoin : safeJoin extractClient.cfg.root sampleName = some [['s'], sampleName] := by decide
  have hkey : extractClient.cacheKey sampleName = sampleName := by decide
  unfold Client.resolveWith
  rw [hpublic, hjoin, hkey]
  rfl

/-- What is not there is extracted and stored. -/
lemma extract_archive : extractClient.resolveClientDirectory sampleName sampleName true =
    .act (.extract [['s'], sampleName] [1]) fun _ => Client.store sampleName [1] (.grf 0) := by
  have hjoin : safeJoin extractClient.cfg.root sampleName = some [['s'], sampleName] := by decide
  change extractClient.resolveArchive sampleName sampleName = _
  unfold Client.resolveArchive
  rw [extractClient_hit]
  simp only [extractClient_read]
  change (extractClient.extractFile sampleName [1] >>= _) = _
  unfold Client.extractFile
  rw [hjoin]
  rfl

lemma extractor_ok {c : Client} {reqPath : Str} {s : Extracting} {server : Server} {a : Action}
    {r : a.Answer} (h : s.server.perform c.platform.md5 a = .ok (r, server)) :
    (c.extractor reqPath).perform s a = .ok (r, { s with server := server }) := by
  change (s.server.perform c.platform.md5 a >>= _) = _
  rw [h]
  rfl

section

variable {start : Extracting} {s : Server}
  {threads : List (Resolving extractClient sampleName × Work Resolved)}

/-- A call looks into the empty cache and at the disk. -/
lemma extract_looks {writings : List Writing} {torn : PathBuf → Bool} {isFile : Bool}
    (h : (extractClient.extractor sampleName).Reachable start ⟨⟨s, writings, torn⟩, threads⟩)
    (hsound : s.cache.Sound) (hempty : s.cache.recency = [])
    (hfile : s.disk.isFile [['s'], sampleName] = isFile) :
    ∃ cache : FileCache, (extractClient.extractor sampleName).Reachable start
        ⟨⟨{ s with cache := cache }, writings, torn⟩, threads ++ [(.same true,
          if isFile then Client.storeFile sampleName [['s'], sampleName] .localFile
            (extractClient.resolveClientDirectory sampleName sampleName true)
          else extractClient.resolveClientDirectory sampleName sampleName true)]⟩ ∧
      cache.Sound ∧ cache.recency = [] ∧ cache.limits = s.cache.limits := by
  obtain ⟨cache, hget, hcache⟩ := perform_cacheGet_empty Calls.sampleMd5 hsound hempty sampleName
  refine ⟨cache, ?_, hcache⟩
  have harrive := h.step (.arrive _ _ (.same true))
  have hmain : (extractClient.extractor sampleName).main (.same true) = _ := extract_call
  rw [hmain] at harrive
  have hasked := harrive.turn threads [] (extractor_ok hget)
  have hlooked := hasked.turn threads [] (extractor_ok (a := .isFile [['s'], sampleName]) rfl)
  change (extractClient.extractor sampleName).Reachable start ⟨⟨_, writings, torn⟩,
    threads ++ [(.same true, if s.disk.isFile [['s'], sampleName] = true then _ else _)]⟩ at hlooked
  rw [hfile] at hlooked
  exact hlooked

/-- The disk on which the file was just created. -/
lemma put_created : emptyDisk.Put createdDisk [['s'], sampleName] [] := by
  refine ⟨by decide, by decide, fun q hq => .inl ?_⟩
  exact if_neg hq

/-- The second call comes between the creation of the loose file and the first write. -/
theorem torn_file_is_served : ∃ pool file,
    (extractClient.extractor sampleName).Reachable
      (Extracting.start extractClient.cfg emptyDisk) pool ∧
    (Resolving.same true, .ret (.ok (some (file, .localFile)))) ∈ pool.threads ∧
    file.data = [] ∧ extractClient.archiveData sampleName = .ok (some [1]) ∧
    safeJoin extractClient.cfg.root sampleName = some [['s'], sampleName] ∧
    emptyDisk.node [['s'], sampleName] = none := by
  -- The first call finds no loose file and goes to the archive.
  obtain ⟨cache₁, hfirst, hsound₁, hempty₁, hlimits₁⟩ := extract_looks
    (.start : (extractClient.extractor sampleName).Reachable
      (Extracting.start extractClient.cfg emptyDisk) _)
    (sound_withBudget _ _) (recency_withBudget _ _)
    (show emptyDisk.isFile [['s'], sampleName] = false from rfl)
  have hextract : extractClient.resolveClientDirectory sampleName sampleName true = _ :=
    extract_archive
  rw [if_neg (by decide), hextract, List.nil_append] at hfirst
  -- It hands the entry over, and a writer creates the file, with nothing in it yet.
  have hhanded := hfirst.turn [] [] (extractor_ok rfl)
  have hcreated := hhanded.step (.env
    (@Extracting.Writes.create _ [['s'], sampleName] [1] [] [] createdDisk rfl put_created))
  -- The second call finds this file and stores what it reads.
  obtain ⟨cache₂, hsecond, hsound₂, hempty₂, hlimits₂⟩ :=
    extract_looks hcreated hsound₁ hempty₁
      (show createdDisk.isFile [['s'], sampleName] = true by decide)
  rw [if_pos rfl] at hsecond
  have hread := hsecond.turn _ [] (extractor_ok (a := .read [['s'], sampleName]) rfl)
  have hkeeps : cache₂.keeps 0 = true := by
    refine (keeps_iff _ _).mpr ?_
    rw [hlimits₂, hlimits₁]
    decide
  let server : Server :=
    { Client.start extractClient.cfg emptyDisk with cache := cache₂, disk := createdDisk }
  obtain ⟨file, s, hinsert, hdata, -⟩ := perform_cacheInsert (s := server) Calls.sampleMd5 hsound₂
    sampleName [] hkeeps
  have hstored := hread.turn _ [] (extractor_ok (a := .cacheInsert sampleName []) hinsert)
  exact ⟨_, file, hstored, List.mem_append_right _ (List.mem_singleton.mpr rfl), hdata,
    extractClient_data, by decide, rfl⟩

end

/-- A call that is alone returns what the archive has. -/
theorem whole_files_are_served_sample : ∃ pool file,
    ((extractClient.extractor sampleName).guarded (ReadsWhole [1])).Reachable
      (Extracting.start extractClient.cfg emptyDisk) pool ∧
    (Resolving.same true, .ret (.ok (some (file, .grf 0)))) ∈ pool.threads ∧ file.data = [1] := by
  let m := extractClient.extractor sampleName
  obtain ⟨cache, hget, hsound, hempty, hlimits⟩ := perform_cacheGet_empty Calls.sampleMd5
    (s := Client.start extractClient.cfg emptyDisk) (sound_withBudget _ _)
    (recency_withBudget _ _) sampleName
  -- Nothing else runs: a miss, no loose file, the entry handed over, the copy stored.
  have harrive : (m.guarded (ReadsWhole [1])).Reachable
      (Extracting.start extractClient.cfg emptyDisk) _ := Machine.Reachable.start.step
        (.arrive _ _ (.same true))
  have hmain : (m.guarded (ReadsWhole [1])).main (.same true) =
      Prog.tag (.same true) (extractClient.resolveWith sampleName true) := rfl
  rw [hmain, extract_call] at harrive
  have hasked := harrive.turn_guarded [] [] rfl (extractor_ok hget)
  have hlooked := hasked.turn_guarded [] [] (a := .isFile [['s'], sampleName]) rfl
    (extractor_ok rfl)
  change (m.guarded (ReadsWhole [1])).Reachable _ ⟨_, [(.same true, Prog.tag (.same true)
    (extractClient.resolveClientDirectory sampleName sampleName true))]⟩ at hlooked
  rw [extract_archive] at hlooked
  have hhanded := hlooked.turn_guarded [] [] rfl (extractor_ok rfl)
  let server : Server := { Client.start extractClient.cfg emptyDisk with
    cache := cache
    extractions := [([['s'], sampleName], [1])] }
  have hkeeps : server.cache.keeps 1 = true := by
    refine (keeps_iff _ _).mpr ?_
    rw [show server.cache.limits = _ from hlimits]
    decide
  obtain ⟨file, s, hinsert, -⟩ := perform_cacheInsert (s := server) Calls.sampleMd5 hsound
    sampleName [1] hkeeps
  have hstored := hhanded.turn_guarded [] [] (a := .cacheInsert sampleName [1]) rfl
    (extractor_ok hinsert)
  have hserved := (whole_files_are_served
    (show safeJoin extractClient.cfg.root sampleName = some [['s'], sampleName] by decide)
    extractClient_data rfl hstored).1 true file (.grf 0) (List.mem_singleton.mpr rfl)
  exact ⟨_, file, hstored, List.mem_singleton.mpr rfl, hserved⟩

end RemoteClient

/-
# From the command line to the answers

What the program does before its first request: it loads the `.env` file, reads the settings,
checks them with the archives and builds the index.  The other modules say what each part does;
here they are put together.  What a `.env` file says about the game data holds in every run
(`dotenv_keeps_game_data`), and what was packed into the archives that the DATA.INI lists is what
requests are answered with (`packed_files_are_served`).
-/
import RemoteClient.Grf.ProtectedArchive
import RemoteClient.Packed
import RemoteClient.Progress
import RemoteClient.Remote
import RemoteClient.Validator

namespace RemoteClient

open Exec Http

namespace Startup

/-! ## The program -/

inductive Outcome where
  | refused (report : Validator.Report)
  | serving (cfg : Settings) (client : Client)

/-- Where the `.env` file is looked for: unlike for the settings, an empty root counts. -/
def dotenvPath (cwd : PathBuf) (vars : Environment) : PathBuf :=
  (((vars.varOs "SERVER_ROOT".toList).join.map (pathFrom cwd)).getD cwd) ++ [".env".toList]

/-- The program without arguments, up to its first request. -/
def run (p : Platform) (disk : Validator.StartDisk) (cwd : PathBuf) (vars : Environment) :
    Exec Empty Outcome := do
  let loaded ← Dotenv.loadDotenv vars (disk.read (dotenvPath cwd vars))
  let cfg := Settings.fromEnv disk.toFileSystem cwd loaded.vars
  let (grfs, report) ← Validator.validateAndLoad p disk cfg
  if report.errors ≠ [] then return .refused report
  else return .serving cfg (Client.new p cfg.toConfig grfs)

variable {p : Platform} {disk : Validator.StartDisk} {cwd : PathBuf} {vars : Environment}
  {cfg : Settings} {c : Client}

/-- When the program serves, and what. -/
lemma run_eq_serving_iff : run p disk cwd vars = .ok (.serving cfg c) ↔
    ∃ loaded, Dotenv.loadDotenv vars (disk.read (dotenvPath cwd vars)) = .ok loaded ∧
      cfg = Settings.fromEnv disk.toFileSystem cwd loaded.vars ∧
      Validator.Startable p disk cfg ∧
      c = Client.new p cfg.toConfig
        ((Validator.listed disk cfg).filterMap (Validator.opened p disk cfg)) := by
  unfold run
  cases hload : Dotenv.loadDotenv vars (disk.read (dotenvPath cwd vars)) with
  | error stop =>
    refine ⟨fun h => absurd h (by simp [bind, Except.bind]), ?_⟩
    rintro ⟨loaded, hloaded, -⟩
    exact absurd hloaded (by simp)
  | ok loaded =>
    rw [ok_bind]
    simp only
    obtain ⟨report, hvalidate, herrors⟩ := Validator.validateAndLoad_spec p disk
      (Settings.fromEnv disk.toFileSystem cwd loaded.vars)
    rw [hvalidate, ok_bind]
    simp only
    constructor
    · intro h
      split at h
      · exact absurd h (by simp [pure, Except.pure])
      · next hnone =>
        obtain ⟨rfl, rfl⟩ := Outcome.serving.inj (Except.ok.inj h)
        exact ⟨loaded, rfl, rfl, herrors.mp (not_not.mp hnone), rfl⟩
    · rintro ⟨loaded', hloaded, rfl, hstart, rfl⟩
      obtain rfl := Except.ok.inj hloaded
      rw [if_neg (not_not.mpr (herrors.mpr hstart))]
      rfl

/-! ## The game data -/

/-- The value a variable has when the settings are read: the one it had, or else the first one that
the file gives it. -/
def valueOf (vars : Environment) (doc : List (Option (Str × Str))) (key : Str) :
    Option (Option Str) :=
  (vars.varOs key).or ((doc.reduceOption.lookup key).map some)

/-- What the `.env` file says, if it can be read; without one nothing is said. -/
inductive DotenvSays (disk : Validator.StartDisk) (cwd : PathBuf) (vars : Environment) :
    List (Option (Str × Str)) → Prop
  | written {text : Str} {doc : List (Option (Str × Str))}
      (htext : disk.readText (dotenvPath cwd vars) = some text)
      (hwritten : Dotenv.Written doc text) : DotenvSays disk cwd vars doc
  | unread (hnone : disk.readText (dotenvPath cwd vars) = none) : DotenvSays disk cwd vars []

/-- What loading the file leaves. -/
lemma varOs_loaded {doc : List (Option (Str × Str))} (hdoc : DotenvSays disk cwd vars doc)
    {loaded : Dotenv.State}
    (hload : Dotenv.loadDotenv vars (disk.read (dotenvPath cwd vars)) = .ok loaded) (key : Str) :
    loaded.vars.varOs key = valueOf vars doc key := by
  cases hdoc with
  | unread hnone =>
    have hnone' : (disk.read (dotenvPath cwd vars)).bind Utf8.decode = none := hnone
    rw [Dotenv.loadDotenv, hnone'] at hload
    obtain rfl := Except.ok.inj hload
    exact (Option.or_none).symm
  | @written text doc htext hwritten =>
    obtain ⟨bytes, hread, hdecode⟩ := Option.bind_eq_some_iff.mp htext
    have hbytes : utf8Bytes text = bytes := Utf8.decode_eq_some_iff.mp hdecode
    rw [hread, ← hbytes, Dotenv.loadDotenv_eq hwritten] at hload
    obtain ⟨hok, hcrash⟩ :=
      Dotenv.foldlM_assign (s := ⟨fun _ => none, vars⟩) doc.reduceOption
    by_cases hsettable : Dotenv.Settable vars doc.reduceOption
    · obtain ⟨s, hs, hleaves⟩ := hok hsettable
      obtain rfl := Except.ok.inj (hs.symm.trans hload)
      exact hleaves.vars key
    · exact absurd ((hcrash hsettable).symm.trans hload) (by simp [crash])

/-- What an archive writer is given: a layout and the items to pack, or the parts of an archive
with protected files and the records of its key block. -/
inductive WrittenGrf (z : Grf.Flate) (C : Grf.Crypto) where
  | packed (layout : Grf.Writer.Layout) (items : List Grf.Writer.Item) (nonempty : items ≠ [])
      (fits : Grf.Writer.Fits z layout items)
      -- No deflated item is as long as it was.
      (shorter : ∀ item ∈ items, layout.deflates item = true →
        (z.deflate item.data).length ≠ item.data.length)
      (byExtension : layout = .v102 → ∀ item ∈ items, item.ModeByExtension)
  | keyed (E : Grf.Generate.Encoders) (lawful : E.Lawful z C) (records : Grf.ArchiveKeys)
      (ids : Grf.Protected.DistinctIds records) (parts : List Grf.Writer.Part)
      (fits : Grf.Writer.KeyedFits z C E records parts)

namespace WrittenGrf

variable {z : Grf.Flate} {C : Grf.Crypto}

def items : WrittenGrf z C → List Grf.Writer.Item
  | packed _ items .. => items
  | keyed _ _ _ _ parts _ => parts.map Grf.Writer.Part.item

/-- The bytes that are written. -/
def write : WrittenGrf z C → Exec Empty (List Byte)
  | packed layout items .. => layout.write z (items.map Grf.Writer.Item.entry)
  | keyed E _ records _ parts _ => do
    let footer ← Grf.Writer.footerOf C records
    Grf.Writer.writeKeyed z C E parts footer

/-- What is written opens, and holds the items. -/
lemma opens (hz : z.Lawful) (T : TextLib) (w : WrittenGrf z C) (fileName : String) :
    ∃ file grf, w.write = .ok file ∧ Grf.openArchive T z C fileName file = .ok grf ∧
      Grf.Writer.Holds T z C grf w.items := by
  cases w with
  | keyed E hE records hids parts hfits =>
    obtain ⟨footer, file, grf, hfooter, hwrite, hopen, hholds⟩ :=
      Grf.Writer.open_keyed T hz hE fileName hids hfits
    refine ⟨file, grf, ?_, hopen, hholds⟩
    rw [write, hfooter, ok_bind, hwrite]
  | packed layout items hne hfits hdeflate hmode =>
    cases layout with
    | v200 =>
      obtain ⟨qs, hlaid, hkinds⟩ := Grf.Writer.laid_signed hz (by decide) hfits hdeflate
      exact Grf.Writer.open_v200 hz fileName hne hfits hlaid hkinds
    | v300 =>
      obtain ⟨qs, hlaid, hkinds⟩ := Grf.Writer.laid_signed hz (by decide) hfits hdeflate
      exact Grf.Writer.open_v300 hz fileName (.inl rfl) hne hfits hlaid hkinds
    | v300EventHorizon =>
      obtain ⟨qs, hlaid, hkinds⟩ := Grf.Writer.laid_signed hz (by decide) hfits hdeflate
      exact Grf.Writer.open_v300 hz fileName (.inr rfl) hne hfits hlaid hkinds
    | v102 =>
      obtain ⟨qs, hfold, hitems, hoffsets, hqs⟩ := Grf.Writer.addLegacy_placed hz hfits.deflated_lt
        (fun item hitem hfile => by
          rw [Grf.Writer.entry_data hfile]
          exact hdeflate item hitem (by simp [Grf.Writer.Layout.deflates, hfile]))
        (hfits.legacy rfl) (hmode rfl) [] []
      exact Grf.Writer.open_v102 fileName hne hfits
        ⟨hfold, hitems, hoffsets, fun q hq => (hqs q hq).1⟩ fun q hq => (hqs q hq).2

end WrittenGrf

/-- What was written is where a listed name says. -/
def Stands (disk : Validator.StartDisk) (cfg : Settings) {z : Grf.Flate} {C : Grf.Crypto}
    (name : Str) (w : WrittenGrf z C) : Prop :=
  disk.isFile (Validator.archivePath cfg name) = true ∧
    ∃ file, w.write = .ok file ∧ disk.read (Validator.archivePath cfg name) = some file

/-- It opens there, and holds its items. -/
lemma Stands.opens (hz : p.flate.Lawful) (hauto : cfg.grfFilenameEncoding = none) {name : Str}
    {w : WrittenGrf p.flate p.crypto} (h : Stands disk cfg name w) :
    ∃ grf, Validator.Opens p disk cfg name grf ∧
      Grf.Writer.Holds p.text p.flate p.crypto grf w.items := by
  obtain ⟨hfile, file, hwrite, hread⟩ := h
  let path := Validator.archivePath cfg name
  obtain ⟨file', grf, hwrite', hopen, hholds⟩ := w.opens hz p.text
    (String.ofList (path.getLast?.getD (Validator.display path)))
  obtain rfl := Except.ok.inj (hwrite.symm.trans hwrite')
  refine ⟨grf, ⟨hfile, ?_⟩, hholds⟩
  unfold Validator.openArchive
  rw [hread, hauto]
  simp only
  rw [show Grf.openWithEncoding _ _ _ _ _ none = _ from hopen]
  rfl

/-- The archives that are opened hold what was packed. -/
lemma opened_packed (hz : p.flate.Lawful) (hauto : cfg.grfFilenameEncoding = none)
    {names : List Str} {ws : List (WrittenGrf p.flate p.crypto)}
    (h : List.Forall₂ (Stands disk cfg) names ws) :
    ∃ packs : List (PackedGrf p.text p.flate p.crypto),
      packs.map PackedGrf.items = ws.map WrittenGrf.items ∧
        names.filterMap (Validator.opened p disk cfg) = packs.map PackedGrf.grf := by
  induction h with
  | nil => exact ⟨[], rfl, rfl⟩
  | @cons name w names ws hstands _ ih =>
    obtain ⟨packs, hitems, hgrfs⟩ := ih
    obtain ⟨grf, hopens, hholds⟩ := hstands.opens hz hauto
    have hopened : Validator.opened p disk cfg name = some grf :=
      Validator.opened_eq_some_iff.mpr hopens
    refine ⟨⟨grf, w.items, hholds⟩ :: packs, ?_, ?_⟩
    · rw [List.map_cons, List.map_cons, hitems]
    · rw [List.filterMap_cons_some hopened, List.map_cons, hgrfs]

/-- A path that only the archives have, under one name. -/
structure Archived (c : Client) {p : Platform} (packs : List (PackedGrf p.text p.flate p.crypto))
    (frozen : PathBuf → Prop) (T : FileSystem) (path name : Str) (data : List Byte) : Prop where
  asset : c.OnlyAsset path
  unshadowed : Unshadowed c frozen T path
  first : firstPacked packs path = some (name, data)
  oneName : OneName packs path name

/-- **What is packed is served.**  Let the archives that the DATA.INI lists be written by the
archive writers, in any layouts, with protected files or without: within the limits of the reader,
with no deflated body as long as its content (`WrittenGrf`), and no more of them than the index
counts.  If the program serves, and no encoding of their names is set, then whatever requests and
warm-ups run in whatever order, a finished GET by someone who may have the game data is answered
with the content that was packed first under a name of its path, when only the archives have the
path (no static file or client directory stands in front of them, and no other source has a path
of its key) and all packed files that it names have one name. -/
theorem packed_files_are_served (hz : p.flate.Lawful)
    (hrun : run p disk cwd vars = .ok (.serving cfg c)) (hauto : cfg.grfFilenameEncoding = none)
    {ws : List (WrittenGrf p.flate p.crypto)}
    (hstands : List.Forall₂ (Stands disk cfg) (Validator.listed disk cfg) ws) :
    ∃ packs : List (PackedGrf p.text p.flate p.crypto),
      packs.map PackedGrf.items = ws.map WrittenGrf.items ∧ packs.map PackedGrf.grf = c.grfs ∧
      (Counted packs → ∀ (frozen : PathBuf → Prop) (T disk' : FileSystem), Guarded c frozen →
        (∀ path, frozen path → disk'.node path = T.node path) →
        ∀ pool, (c.machine frozen).Reachable (Client.start c.cfg disk') pool →
        ∀ (r : Request) (raw name : Str) (data : List Byte) (a : Option Response),
          r.endpoint = .path .get raw → r.gameData c.cfg = true →
          Archived c packs frozen T (c.decoded raw) name data →
          (Job.request r, .ret a) ∈ pool.threads →
          a = some (c.assetAnswer r.headers (c.decoded raw) data)) := by
  obtain ⟨loaded, -, -, -, rfl⟩ := run_eq_serving_iff.mp hrun
  obtain ⟨packs, hitems, hgrfs⟩ := opened_packed hz hauto hstands
  refine ⟨packs, hitems, hgrfs.symm, ?_⟩
  rw [hgrfs]
  intro hcounted frozen T disk' hguarded hdisk pool hreach r raw name data a hget hgame harchived hdone
  exact answer_packed hcounted hguarded hdisk hreach hget hgame harchived.asset
    harchived.unshadowed harchived.first harchived.oneName hdone

/-! ## A sample -/

/-- What the `.env` file of the sample assigns. -/
def sampleAssigned : List (Str × Str) :=
  [("REMOTE_GRF_DATA".toList, "false".toList), ("CLIENT_PUBLIC_URL".toList, "http://a".toList),
    ("ENABLE_WSPROXY".toList, "true".toList), ("WS_ALLOWED_TARGETS".toList, "a:1".toList)]

def sampleDataIni : Str := "[Data]\n0=a.grf".toList

lemma sample_shorter : ∀ item ∈ Grf.Writer.sampleItems,
    Grf.Writer.Layout.v200.deflates item = true →
      (Grf.Writer.sampleFlate.deflate item.data).length ≠ item.data.length := by
  decide +kernel

lemma sample_byExtension : Grf.Writer.Layout.v200 = .v102 →
    ∀ item ∈ Grf.Writer.sampleItems, item.ModeByExtension := by
  intro h
  exact absurd h (by decide)

lemma sample_nonempty : Grf.Writer.sampleItems ≠ [] := List.cons_ne_nil _ _

def sampleWritten : WrittenGrf Grf.Writer.sampleFlate Grf.Writer.noCrypto :=
  .packed .v200 Grf.Writer.sampleItems sample_nonempty Grf.Writer.sample_fits sample_shorter
    sample_byExtension

def sampleGrf : List Byte := sampleWritten.write.toOption.getD []

def fileNode (bytes : List Byte) : Metadata × Option (List Byte) :=
  (⟨false, true, bytes.length, 0⟩, some bytes)

def sampleResources : PathBuf := [['s'], "resources".toList]

/-- A directory with a `.env` file, a DATA.INI and one archive. -/
def sampleNode (path : PathBuf) : Option (Metadata × Option (List Byte)) :=
  if path = [['s'], ".env".toList] then
    some (fileNode (utf8Bytes (Dotenv.render sampleAssigned)))
  else if path = sampleResources then some (⟨true, false, 0, 0⟩, none)
  else if path = sampleResources ++ ["DATA.INI".toList] then
    some (fileNode (utf8Bytes sampleDataIni))
  else if path = sampleResources ++ ["a.grf".toList] then some (fileNode sampleGrf)
  else none

def sampleStartDisk : Validator.StartDisk where
  node := sampleNode
  canonicalize := some
  readDir := fun _ => none
  openError := fun _ => []

def sampleVars : Environment := fun _ => none

/-- What loading the file leaves. -/
def sampleLoaded : Dotenv.State where
  found := sampleAssigned.foldl (fun found a => Function.update found a.1 (some a.2))
    fun _ => none
  vars := sampleAssigned.foldl (fun vars a => Function.update vars a.1 (some (some a.2))) sampleVars

def sampleSettings : Settings :=
  Settings.fromEnv sampleStartDisk.toFileSystem [['s']] sampleLoaded.vars

/-- What the sample program serves. -/
def sampleServer : Client :=
  Client.new sampleClient.platform sampleSettings.toConfig
    ((Validator.listed sampleStartDisk sampleSettings).filterMap
      (Validator.opened sampleClient.platform sampleStartDisk sampleSettings))

lemma sample_writable : ∀ a ∈ sampleAssigned, Dotenv.Writable a := by
  have hall : ∀ a ∈ sampleAssigned, Text.trim a.1 = a.1 ∧ a.1 ≠ [] ∧ '=' ∉ a.1 ∧ '\n' ∉ a.1 ∧
      '\n' ∉ a.2 := by decide
  intro a ha
  obtain ⟨htrim, hne, hequals, hname, hvalue⟩ := hall a ha
  exact ⟨htrim, hne, hequals, hname, hvalue⟩

/-- A text that is read. -/
lemma readText_of_read {path : PathBuf} {text : Str}
    (h : disk.read path = some (utf8Bytes text)) : disk.readText path = some text := by
  rw [Validator.StartDisk.readText, h]
  exact Utf8.decode_encode text

lemma sample_env : sampleStartDisk.readText (dotenvPath [['s']] sampleVars) =
    some (Dotenv.render sampleAssigned) := readText_of_read rfl

lemma sample_loaded : Dotenv.loadDotenv sampleVars
    (sampleStartDisk.read (dotenvPath [['s']] sampleVars)) = .ok sampleLoaded := by
  change Dotenv.loadDotenv sampleVars (some (utf8Bytes (Dotenv.render sampleAssigned))) = _
  rw [Dotenv.loadDotenv_eq (Dotenv.written_render sample_writable)]
  rfl

lemma sample_listed : Validator.listed sampleStartDisk sampleSettings = ["a.grf".toList] := by
  have htext : sampleStartDisk.readText sampleSettings.dataIniPath = some sampleDataIni :=
    readText_of_read rfl
  rw [Validator.listed, htext]
  decide +kernel

lemma sample_stands : Stands sampleStartDisk sampleSettings "a.grf".toList sampleWritten := by
  obtain ⟨file, grf, hwrite, -⟩ := sampleWritten.opens Grf.Writer.sampleFlate_lawful .ascii
    "a.grf"
  refine ⟨by decide +kernel, file, hwrite, ?_⟩
  have hgrf : sampleGrf = file := by
    unfold sampleGrf
    rw [hwrite]
    rfl
  rw [← hgrf]
  rfl

lemma sample_startable :
    Validator.Startable sampleClient.platform sampleStartDisk sampleSettings where
  url := ⟨"http://a".toList, by decide +kernel, by decide +kernel⟩
  targets := fun _ => by decide +kernel
  clientDirectories := by
    have hnone : sampleSettings.bgmPath = none ∧ sampleSettings.aiPath = none := by decide +kernel
    intro path hpath
    rw [hnone.1, hnone.2] at hpath
    exact absurd hpath (by simp)
  resources := by decide +kernel
  dataIni := by decide +kernel
  nonempty := fun _ => by rw [sample_listed]; exact List.cons_ne_nil _ _
  archives := by
    intro name hname
    rw [sample_listed] at hname
    rw [List.mem_singleton.mp hname]
    obtain ⟨grf, hopens, -⟩ := sample_stands.opens (p := sampleClient.platform)
      Grf.Writer.sampleFlate_lawful (by decide +kernel)
    exact ⟨grf, hopens⟩

lemma sample_run : run sampleClient.platform sampleStartDisk [['s']] sampleVars =
    .ok (.serving sampleSettings sampleServer) :=
  run_eq_serving_iff.mpr ⟨sampleLoaded, sample_loaded, rfl, sample_startable, rfl⟩

lemma sample_guarded (frozen : PathBuf → Prop) : Guarded sampleServer frozen :=
  fun _ _ => sampleServer.cfg.autoextract_off (by decide +kernel)

/-- A request for the packed file. -/
def samplePacked (loopback : Bool) : Request where
  loopback := loopback
  headers := {}
  endpoint := .path .get "/d/a".toList

/-- A job of the sample server that is alone comes to an end. -/
lemma sample_ends (frozen : PathBuf → Prop) (job : Job) : ∃ a s,
    (sampleServer.machine frozen).Reachable
      (Client.start sampleServer.cfg sampleStartDisk.toFileSystem) ⟨s, [(job, .ret a)]⟩ :=
  job_ends (sample_guarded frozen) (fun _ _ => rfl) [] []
    (Machine.Reachable.step .start (.arrive _ [] job))

/-- The sample archive is the only place for its file. -/
lemma sample_unshadowed : Unshadowed sampleServer (fun _ => True) sampleStartDisk.toFileSystem
    (sampleServer.decoded "/d/a".toList) where
  loose := by
    intro q path hpublic _ hjoin
    refine ⟨trivial, ?_⟩
    obtain ⟨parts, hpath, hparts⟩ := safeJoin_public hpublic hjoin
    have hroot : sampleServer.cfg.root = [['s']] := by decide +kernel
    rw [hroot] at hpath
    have hresources : ∀ tail, path ≠ sampleResources ++ tail := by
      rintro tail rfl
      obtain rfl := (List.cons.inj hpath).2
      exact (hparts.first _ rfl).2 (by decide)
    have henv : path ≠ [['s'], ".env".toList] := by
      rintro rfl
      obtain rfl := (List.cons.inj hpath).2
      exact (hparts.names _ (List.mem_singleton_self _)).visible (by decide)
    have hnode : sampleStartDisk.node path = none := by
      change sampleNode path = none
      rw [sampleNode, if_neg henv, if_neg (by simpa using hresources []), if_neg (hresources _),
        if_neg (hresources _)]
    unfold FileSystem.fileData FileSystem.isFile FileSystem.metadata
    rw [hnode]
    rfl
  client := by
    have hnone : sampleServer.cfg.bgmPath = none ∧ sampleServer.cfg.aiPath = none := by
      decide +kernel
    intro q _ _
    unfold Client.clientDirectory
    rw [hnone.1, hnone.2]
    split
    · rfl
    · simp
  dataOverride := by
    have hnone : sampleServer.cfg.dataOverridePath = none := by decide +kernel
    intro q dir path _ _ hdir
    exact absurd (hnone.symm.trans hdir) (by simp)

/-- The packed file is found under its name, which is plain in either encoding. -/
lemma sample_contents {T : TextLib} {z : Grf.Flate} {C : Grf.Crypto} {packed : PackedGrf T z C}
    (hT : T = .ascii) (h : packed.items = Grf.Writer.sampleItems) :
    packed.contents = [("d\\a".toList, Grf.Writer.sampleContent)] := by
  subst hT
  unfold PackedGrf.contents
  rw [h]
  cases packed.grf.stats.detectedEncoding <;> decide +kernel

/-- The sample server answers a local request with what was packed. -/
theorem packed_files_are_served_sample : ∃ a s,
    (sampleServer.machine fun _ => True).Reachable
      (Client.start sampleServer.cfg sampleStartDisk.toFileSystem)
      ⟨s, [(.request (samplePacked true), .ret a)]⟩ ∧
      a = some (sampleServer.assetAnswer {} (sampleServer.decoded "/d/a".toList)
        Grf.Writer.sampleContent) := by
  obtain ⟨a, s, hreach⟩ := sample_ends (fun _ => True) (.request (samplePacked true))
  have hstands : List.Forall₂ (Stands sampleStartDisk sampleSettings)
      (Validator.listed sampleStartDisk sampleSettings) [sampleWritten] := by
    rw [sample_listed]
    exact .cons sample_stands .nil
  obtain ⟨packs, hitems, -, hserved⟩ := packed_files_are_served Grf.Writer.sampleFlate_lawful
    sample_run (by decide +kernel) hstands
  obtain ⟨packed, rfl, hpacked⟩ := List.map_eq_singleton_iff.mp hitems
  have hcontents : contents [packed] = [("d\\a".toList, Grf.Writer.sampleContent)] := by
    rw [contents, List.flatMap_singleton]
    exact sample_contents rfl hpacked
  have hcounted : Counted [packed] := by
    refine ⟨by simp, ?_⟩
    rw [hcontents]
    decide
  refine ⟨a, s, hreach, hserved hcounted (fun _ => True) sampleStartDisk.toFileSystem
    sampleStartDisk.toFileSystem (sample_guarded _) (fun _ _ => rfl) _ hreach (samplePacked true)
    "/d/a".toList "d\\a".toList Grf.Writer.sampleContent a rfl (by decide +kernel) ?_
    (List.mem_singleton_self _)⟩
  exact {
    asset := ⟨by decide +kernel, by decide +kernel, by decide +kernel⟩
    unshadowed := sample_unshadowed
    first := by
      rw [firstPacked, hcontents]
      decide +kernel
    oneName := by
      intro x hx _
      rw [hcontents] at hx
      rw [List.mem_singleton.mp hx] }

end Startup
end RemoteClient

/-
# Startup validation

Every check is made and the archives are loaded in one pass; a server with errors does not
start.  `validateAndLoad` says what is wrong in the words of the source, and `Startable` what has
to be right.  The two agree (`validateAndLoad_exact`), and the archives that are loaded are those
of the DATA.INI that open, in its order.
-/
import RemoteClient.DataIni
import RemoteClient.Grf.NoPanic
import RemoteClient.Settings

namespace RemoteClient

open Exec Text

namespace Validator

/-! ## Reports -/

/-- What was found, in the order it was found. -/
structure Report where
  errors : List Str := []
  warnings : List Str := []
  info : List Str := []

namespace Report

/-- One report after the other. -/
def append (a b : Report) : Report :=
  ⟨a.errors ++ b.errors, a.warnings ++ b.warnings, a.info ++ b.info⟩

instance instAppend : Append Report := ⟨append⟩

def error (message : Str) : Report := { errors := [message] }

def warn (message : Str) : Report := { warnings := [message] }

def note (message : Str) : Report := { info := [message] }

@[simp] lemma errors_append (a b : Report) : (a ++ b).errors = a.errors ++ b.errors := rfl

@[simp] lemma errors_error (message : Str) : (error message).errors = [message] := rfl

@[simp] lemma errors_warn (message : Str) : (warn message).errors = [] := rfl

@[simp] lemma errors_note (message : Str) : (note message).errors = [] := rfl

end Report

/-! ## Texts -/

/-- `Path::display`. -/
def display (path : PathBuf) : Str := if path = [] then ['/'] else pathString path

def decimal (n : ℕ) : Str := Nat.toDigits 10 n

def upperHex (n : ℕ) : Str := (Nat.toDigits 16 n).map Char.toUpper

def errorText : Grf.GrfError → Str
  | .io e => e.message.toList
  | .invalidSignature s => "Invalid signature: \"".toList ++ s ++ ['"']
  | .unsupportedVersion version => "Version 0x".toList ++ upperHex version.toNat ++
    " is not supported (expected: 0x1xx, 0x200 or 0x300)".toList
  | .limitExceeded s => s.toList
  | .corruptTable s => s.toList

def encodingName : FilenameEncoding → Str
  | .utf8 => "utf-8".toList
  | .cp949 => "cp949".toList

def repackHint : Str :=
  ("  FIX: repack the archive with GRF Editor:\n" ++
    "  1. Download GRF Editor: https://github.com/Tokeiburu/GRFEditor\n" ++
    "  2. File -> Options -> Repack type -> Decrypt\n" ++
    "  3. Tools -> Repack\n" ++
    "  4. Replace the original file when it finishes").toList

/-! ## The disk at startup -/

/-- What the server looks at before it starts. -/
structure StartDisk extends FileSystem where
  /-- The names in a directory that can be listed. -/
  readDir : PathBuf → Option (List Str)
  /-- Why a file cannot be opened. -/
  openError : PathBuf → Str

namespace StartDisk

variable (disk : StartDisk)

def isDir (path : PathBuf) : Bool := (disk.metadata path).any Metadata.isDir

def existsAt (path : PathBuf) : Bool := (disk.metadata path).isSome

/-- A file that is a text. -/
def readText (path : PathBuf) : Option Str := (disk.read path).bind Utf8.decode

end StartDisk

section

variable (p : Platform) (disk : StartDisk) (cfg : Settings)

/-! ## The environment -/

def looksLikeUrl (value : Str) : Bool :=
  match Lines.cut "://".toList value with
  | some (scheme, rest) => scheme ≠ [] && rest ≠ []
  | none => false

def checkPublicUrl : Report :=
  match cfg.clientPublicUrl with
  | none => .error "CLIENT_PUBLIC_URL not set! Configure it in the .env file".toList
  | some url =>
    if looksLikeUrl url then .note ("CLIENT_PUBLIC_URL: ".toList ++ url)
    else .error ("Invalid CLIENT_PUBLIC_URL: ".toList ++ url)

def checkStatic : Report :=
  if !cfg.enableStaticServe then {}
  else if disk.isDir cfg.robrowserPath then
    .note ("ENABLE_STATIC_SERVE: serving ".toList ++ display cfg.robrowserPath)
  else
    .warn ("ENABLE_STATIC_SERVE is on but ROBROWSER_PATH does not exist: ".toList ++
      display cfg.robrowserPath)

def checkTargets : Report :=
  if !cfg.enableWsproxy then {}
  else
    let invalid := cfg.wsAllowedTargets.filter fun t => (WsProxy.parseTarget t).isNone
    if invalid = [] then
      .note ("WS_ALLOWED_TARGETS: ".toList ++ ", ".toList.intercalate cfg.wsAllowedTargets)
    else
      .error ("WS_ALLOWED_TARGETS contains invalid entries: ".toList ++
        ", ".toList.intercalate invalid ++
        "\n  Each entry must be \"host:port\" where port is 1-65535.".toList)

def checkOverride : Report :=
  match cfg.dataOverridePath with
  | none => {}
  | some path =>
    if disk.isDir path then .note ("DATA_OVERRIDE_PATH: ".toList ++ display path)
    else .warn ("DATA_OVERRIDE_PATH does not exist: ".toList ++ display path)

/-- A selected client directory has to be there and to be readable. -/
def checkClientDirectory (name : Str) (path : Option PathBuf) : Report :=
  match path with
  | none => {}
  | some path =>
    if !disk.isDir path || (disk.readDir path).isNone then
      .error (name ++ " is not a readable directory: ".toList ++ display path ++
        ". Reselect the client folder.".toList)
    else {}

def checkDotenv : Report :=
  if disk.existsAt (cfg.root ++ [".env".toList]) then {}
  else .warn ".env file not found! Copy .env.example to .env and configure it".toList

def validateEnvironment : Report :=
  .note ("PORT: ".toList ++ decimal cfg.port) ++ checkPublicUrl cfg ++
    .note ("NODE_ENV: ".toList ++ cfg.nodeEnv) ++ checkStatic disk cfg ++ checkTargets cfg ++
    checkOverride disk cfg ++ checkClientDirectory disk "BGM_PATH".toList cfg.bgmPath ++
    checkClientDirectory disk "AI_PATH".toList cfg.aiPath ++ checkDotenv disk cfg

/-! ## The files -/

/-- A directory counts as empty when all it holds are add-ons. -/
def dirIsEmpty (path : PathBuf) : Bool :=
  match disk.readDir path with
  | some names => !names.any fun name => !"add-".toList.isPrefixOf name
  | none => true

/-- The explanation for a whole class of missing-file reports. -/
def checkAssetDirectory (name : Str) : Report :=
  let path := cfg.root ++ [name]
  if !disk.isDir path then
    .warn (name ++ "/ folder not found - may cause issues depending on the client".toList)
  else if dirIsEmpty disk path then
    .warn (name ++ "/ folder is empty - may cause issues depending on the client".toList)
  else .note (name ++ "/ folder OK".toList)

def checkResources : Report :=
  if disk.isDir cfg.resourcesDir then .note (cfg.clientRespath ++ " folder OK".toList)
  else .error (cfg.clientRespath ++ " folder not found!".toList)

def checkDataIni : Report :=
  if disk.isFile cfg.dataIniPath then .note (cfg.clientDataini ++ " file OK".toList)
  else .error (display cfg.dataIniPath ++ " file not found!".toList)

def validateRequiredFiles : Report :=
  checkResources disk cfg ++ checkDataIni disk cfg ++ checkAssetDirectory disk cfg "BGM".toList ++
    checkAssetDirectory disk cfg "data".toList ++ checkAssetDirectory disk cfg "System".toList

/-! ## The archives -/

/-- Where a listed archive is: a name may be a path, and an absolute one is taken as it is. -/
def archivePath (name : Str) : PathBuf := pathFrom cfg.resourcesDir name

/-- Open an archive, or say why that fails. -/
def openArchive (path : PathBuf) : Exec Str Grf :=
  match disk.read path with
  | none => fail (disk.openError path)
  | some file =>
    mapErr errorText (Grf.openWithEncoding p.text p.flate p.crypto
      (String.ofList (path.getLast?.getD (display path))) file cfg.grfFilenameEncoding)

/-- What is said about an archive that opens. -/
def archiveReport (name : Str) (grf : Grf) : Report :=
  let stats := grf.stats
  .note ("Valid GRF: ".toList ++ name ++ " (version 0x".toList ++ upperHex grf.version.toNat ++
      ", ".toList ++ decimal stats.fileCount ++ " files)".toList) ++
    (if 0 < stats.nonUtf8NameCount then
      .warn ("GRF path encoding: ".toList ++ name ++ " has ".toList ++
        decimal stats.nonUtf8NameCount ++ " non-UTF-8 filenames, decoded as ".toList ++
        encodingName stats.detectedEncoding ++
        ". This is normal for Korean clients. Examples: ".toList ++
        " | ".toList.intercalate stats.nonUtf8Samples)
    else {}) ++
    if 0 < stats.encryptedCount then
      .note (name ++ ": ".toList ++ decimal stats.encryptedCount ++ " encrypted entries (".toList ++
        decimal stats.protectedCount ++ " protected) will be decrypted on read".toList)
    else {}

/-- Load one listed archive. -/
def loadArchive (name : Str) : Exec Empty (List Grf × Report) :=
  let path := archivePath cfg name
  if !disk.isFile path then .ok ([], .error ("GRF not found: ".toList ++ name))
  else
    match openArchive p disk cfg path with
    | .ok grf => .ok ([grf], archiveReport name grf)
    | .error (.err e) =>
      .ok ([], .error ("Incompatible GRF: ".toList ++ name ++ "\n  ".toList ++ e ++
        "\n\n".toList ++ repackHint))
    | .error .panic => crash
    | .error .hang => .error .hang

def loadArchives : List Str → Exec Empty (List Grf × Report)
  | [] => .ok ([], {})
  | name :: names => do
    let (grfs, report) ← loadArchive p disk cfg name
    let (others, rest) ← loadArchives names
    return (grfs ++ others, report ++ rest)

def validateGrfs : Exec Empty (List Grf × Report) :=
  match disk.readText cfg.dataIniPath with
  -- what is missing was reported already
  | none => .ok ([], {})
  | some content =>
    let listed := DataIni.parseDataIni content
    if listed = [] then
      .ok ([], .error ("No GRF files found in ".toList ++ display cfg.dataIniPath ++
        "! Add them to the [Data] section.".toList))
    else loadArchives p disk cfg listed

/-- Run every check and load the archives in one pass. -/
def validateAndLoad : Exec Empty (List Grf × Report) := do
  let (grfs, report) ← validateGrfs p disk cfg
  return (grfs, validateEnvironment disk cfg ++ validateRequiredFiles disk cfg ++ report)

end

/-! ## What has to be right -/

section

variable {p : Platform} {disk : StartDisk} {cfg : Settings}

/-- A text `scheme://rest`. -/
lemma looksLikeUrl_iff {url : Str} : looksLikeUrl url = true ↔
    ¬"://".toList <+: url ∧ ∃ scheme rest, url = scheme ++ "://".toList ++ rest ∧ rest ≠ [] := by
  unfold looksLikeUrl
  cases hcut : Lines.cut "://".toList url with
  | none =>
    refine ⟨fun h => absurd h (by simp), ?_⟩
    rintro ⟨-, scheme, rest, rfl, -⟩
    obtain ⟨head, tail, hsome⟩ := Lines.cut_isSome "://".toList scheme rest
    rw [hcut] at hsome
    exact absurd hsome (by simp)
  | some parts =>
    obtain ⟨scheme, rest⟩ := parts
    obtain ⟨hurl, hfirst⟩ := Lines.cut_eq_some_iff.mp hcut
    simp only [Bool.and_eq_true, decide_eq_true_eq, ne_eq]
    constructor
    · rintro ⟨hscheme, hrest⟩
      refine ⟨?_, scheme, rest, hurl, hrest⟩
      rintro ⟨t, ht⟩
      have hle := hfirst [] t ht.symm
      exact hscheme (List.length_eq_zero_iff.mp (Nat.le_zero.mp hle))
    · rintro ⟨hstart, scheme', rest', hurl', hrest'⟩
      refine ⟨?_, ?_⟩
      · rintro rfl
        exact hstart ⟨rest, hurl.symm⟩
      · rintro rfl
        -- Behind the first place nothing is left, so there is nothing behind any other.
        have hle := hfirst scheme' rest' hurl'
        have hlen := congrArg List.length (hurl.symm.trans hurl')
        simp only [List.length_append, List.length_nil] at hlen
        exact hrest' (List.length_eq_zero_iff.mp (by omega))

/-- A listed archive is there and opens. -/
def Opens (p : Platform) (disk : StartDisk) (cfg : Settings) (name : Str) (grf : Grf) : Prop :=
  disk.isFile (archivePath cfg name) = true ∧
    openArchive p disk cfg (archivePath cfg name) = .ok grf

/-- The archives that the DATA.INI lists, if it can be read. -/
def listed (disk : StartDisk) (cfg : Settings) : List Str :=
  ((disk.readText cfg.dataIniPath).map DataIni.parseDataIni).getD []

/-- What has to be right before the server starts. -/
structure Startable (p : Platform) (disk : StartDisk) (cfg : Settings) : Prop where
  url : ∃ url, cfg.clientPublicUrl = some url ∧ looksLikeUrl url = true
  targets : cfg.enableWsproxy = true →
    ∀ t ∈ cfg.wsAllowedTargets, (WsProxy.parseTarget t).isSome = true
  clientDirectories : ∀ path, cfg.bgmPath = some path ∨ cfg.aiPath = some path →
    disk.isDir path = true ∧ (disk.readDir path).isSome = true
  resources : disk.isDir cfg.resourcesDir = true
  dataIni : disk.isFile cfg.dataIniPath = true
  /-- A DATA.INI that is no text passes. -/
  nonempty : (disk.readText cfg.dataIniPath).isSome = true → listed disk cfg ≠ []
  archives : ∀ name ∈ listed disk cfg, ∃ grf, Opens p disk cfg name grf

/-! ## The checks -/

lemma errors_checkPublicUrl : (checkPublicUrl cfg).errors = [] ↔
    ∃ url, cfg.clientPublicUrl = some url ∧ looksLikeUrl url = true := by
  unfold checkPublicUrl
  cases cfg.clientPublicUrl with
  | none => simp
  | some url => cases hurl : looksLikeUrl url <;> simp [hurl]

lemma errors_checkStatic : (checkStatic disk cfg).errors = [] := by
  unfold checkStatic
  split_ifs <;> rfl

lemma errors_checkTargets : (checkTargets cfg).errors = [] ↔ (cfg.enableWsproxy = true →
    ∀ t ∈ cfg.wsAllowedTargets, (WsProxy.parseTarget t).isSome = true) := by
  unfold checkTargets
  cases cfg.enableWsproxy with
  | false => simp
  | true =>
    have hinvalid : (cfg.wsAllowedTargets.filter fun t => (WsProxy.parseTarget t).isNone) = [] ↔
        ∀ t ∈ cfg.wsAllowedTargets, (WsProxy.parseTarget t).isSome = true := by
      simp [List.filter_eq_nil_iff, Option.isSome_iff_ne_none]
    rw [← hinvalid]
    simp only [Bool.not_true, Bool.false_eq_true, if_false, true_implies]
    split
    · next h => simp [h]
    · next h => simp [h]

lemma errors_checkOverride : (checkOverride disk cfg).errors = [] := by
  unfold checkOverride
  cases cfg.dataOverridePath with
  | none => rfl
  | some path => cases hdir : disk.isDir path <;> simp [hdir]

lemma errors_checkClientDirectory {name : Str} {path : Option PathBuf} :
    (checkClientDirectory disk name path).errors = [] ↔
      ∀ dir, path = some dir → disk.isDir dir = true ∧ (disk.readDir dir).isSome = true := by
  unfold checkClientDirectory
  cases path with
  | none => simp
  | some dir =>
    cases hdir : disk.isDir dir <;> cases hread : disk.readDir dir <;> simp [hdir, hread]

lemma errors_checkDotenv : (checkDotenv disk cfg).errors = [] := by
  unfold checkDotenv
  split_ifs <;> rfl

lemma errors_checkAssetDirectory (name : Str) : (checkAssetDirectory disk cfg name).errors = [] := by
  unfold checkAssetDirectory
  simp only
  split_ifs <;> rfl

lemma errors_checkResources :
    (checkResources disk cfg).errors = [] ↔ disk.isDir cfg.resourcesDir = true := by
  unfold checkResources
  cases hdir : disk.isDir cfg.resourcesDir <;> simp

lemma errors_checkDataIni :
    (checkDataIni disk cfg).errors = [] ↔ disk.isFile cfg.dataIniPath = true := by
  unfold checkDataIni
  cases hfile : disk.isFile cfg.dataIniPath <;> simp

/-! ## The archives -/

/-- The archive of a listed name, if it opens. -/
def opened (p : Platform) (disk : StartDisk) (cfg : Settings) (name : Str) : Option Grf :=
  if disk.isFile (archivePath cfg name) then
    (openArchive p disk cfg (archivePath cfg name)).toOption
  else none

lemma opened_eq_some_iff {name : Str} {grf : Grf} :
    opened p disk cfg name = some grf ↔ Opens p disk cfg name grf := by
  unfold opened Opens
  cases hfile : disk.isFile (archivePath cfg name) with
  | false => simp
  | true => cases hopen : openArchive p disk cfg (archivePath cfg name) <;> simp [Except.toOption]

lemma ends_openArchive (p : Platform) (disk : StartDisk) (cfg : Settings) (path : PathBuf) :
    Ends (openArchive p disk cfg path) fun _ => True := by
  unfold openArchive
  cases disk.read path with
  | none => exact ends_fail
  | some file =>
    simp only
    rw [ends_mapErr]
    exact Grf.ends_openWithEncoding _ _ _ _ file _

/-- One archive is loaded, or there is an error. -/
lemma loadArchive_spec (p : Platform) (disk : StartDisk) (cfg : Settings) (name : Str) : ∃ report,
    loadArchive p disk cfg name = .ok ((opened p disk cfg name).toList, report) ∧
      (report.errors = [] ↔ ∃ grf, Opens p disk cfg name grf) := by
  have hends := ends_openArchive p disk cfg (archivePath cfg name)
  unfold loadArchive
  simp only [← opened_eq_some_iff]
  unfold opened
  cases hfile : disk.isFile (archivePath cfg name) with
  | false => exact ⟨_, rfl, by simp⟩
  | true =>
    cases hopen : openArchive p disk cfg (archivePath cfg name) with
    | ok grf =>
      refine ⟨archiveReport name grf, rfl, ?_⟩
      unfold archiveReport
      simp only
      split_ifs <;> simp [Except.toOption]
    | error stop =>
      rw [hopen] at hends
      cases stop with
      | err e => exact ⟨_, rfl, by simp [Except.toOption]⟩
      | panic => exact hends.elim
      | hang => exact hends.elim

lemma loadArchives_spec (p : Platform) (disk : StartDisk) (cfg : Settings) (names : List Str) :
    ∃ report,
    loadArchives p disk cfg names = .ok (names.filterMap (opened p disk cfg), report) ∧
      (report.errors = [] ↔ ∀ name ∈ names, ∃ grf, Opens p disk cfg name grf) := by
  induction names with
  | nil => exact ⟨{}, rfl, by simp⟩
  | cons name names ih =>
    obtain ⟨report, hload, herrors⟩ := loadArchive_spec p disk cfg name
    obtain ⟨rest, hrest, herrors'⟩ := ih
    refine ⟨report ++ rest, ?_, ?_⟩
    · rw [loadArchives, hload, ok_bind]
      simp only
      rw [hrest, ok_bind]
      cases hname : opened p disk cfg name with
      | none => rw [List.filterMap_cons_none hname]; rfl
      | some grf => rw [List.filterMap_cons_some hname]; rfl
    · rw [Report.errors_append, List.append_eq_nil_iff, herrors, herrors', List.forall_mem_cons]

lemma validateGrfs_spec (p : Platform) (disk : StartDisk) (cfg : Settings) : ∃ report,
    validateGrfs p disk cfg = .ok ((listed disk cfg).filterMap (opened p disk cfg), report) ∧
      (report.errors = [] ↔
        ((disk.readText cfg.dataIniPath).isSome = true → listed disk cfg ≠ []) ∧
          ∀ name ∈ listed disk cfg, ∃ grf, Opens p disk cfg name grf) := by
  unfold validateGrfs listed
  cases disk.readText cfg.dataIniPath with
  | none => exact ⟨{}, rfl, by simp⟩
  | some content =>
    simp only [Option.map_some, Option.getD_some, Option.isSome_some, true_implies]
    by_cases hnil : DataIni.parseDataIni content = []
    · rw [if_pos hnil, hnil]
      exact ⟨_, rfl, by simp⟩
    · obtain ⟨report, hload, herrors⟩ :=
        loadArchives_spec p disk cfg (DataIni.parseDataIni content)
      rw [if_neg hnil]
      exact ⟨report, hload, by rw [herrors, and_iff_right hnil]⟩

/-- The run of all checks. -/
lemma validateAndLoad_spec (p : Platform) (disk : StartDisk) (cfg : Settings) : ∃ report,
    validateAndLoad p disk cfg = .ok ((listed disk cfg).filterMap (opened p disk cfg), report) ∧
      (report.errors = [] ↔ Startable p disk cfg) := by
  obtain ⟨report, hload, herrors⟩ := validateGrfs_spec p disk cfg
  refine ⟨validateEnvironment disk cfg ++ validateRequiredFiles disk cfg ++ report, ?_, ?_⟩
  · rw [validateAndLoad, hload]
    rfl
  · simp only [validateEnvironment, validateRequiredFiles, Report.errors_append,
      Report.errors_note, List.append_eq_nil_iff, List.nil_append, errors_checkPublicUrl,
      errors_checkStatic, errors_checkTargets, errors_checkOverride, errors_checkClientDirectory,
      errors_checkDotenv, errors_checkAssetDirectory, errors_checkResources, errors_checkDataIni,
      herrors, and_true]
    constructor
    · rintro ⟨⟨⟨⟨⟨hurl, htargets⟩, hbgm⟩, hai⟩, hresources, hini⟩, hnonempty, harchives⟩
      exact {
        url := hurl
        targets := htargets
        clientDirectories := fun path hpath => hpath.elim (hbgm path) (hai path)
        resources := hresources
        dataIni := hini
        nonempty := hnonempty
        archives := harchives }
    · intro h
      exact ⟨⟨⟨⟨⟨h.url, h.targets⟩, fun path hpath => h.clientDirectories path (.inl hpath)⟩,
        fun path hpath => h.clientDirectories path (.inr hpath)⟩, h.resources, h.dataIni⟩,
        h.nonempty, h.archives⟩

/-- The archives that are loaded are those that are listed. -/
lemma forall₂_opened (h : Startable p disk cfg) : List.Forall₂ (Opens p disk cfg)
    (listed disk cfg) ((listed disk cfg).filterMap (opened p disk cfg)) := by
  have hgen : ∀ names : List Str, (∀ name ∈ names, ∃ grf, Opens p disk cfg name grf) →
      List.Forall₂ (Opens p disk cfg) names (names.filterMap (opened p disk cfg)) := by
    intro names hnames
    induction names with
    | nil => exact .nil
    | cons name names ih =>
      obtain ⟨⟨grf, hgrf⟩, hrest⟩ := List.forall_mem_cons.mp hnames
      rw [List.filterMap_cons_some (opened_eq_some_iff.mpr hgrf)]
      exact .cons hgrf (ih hrest)
  exact hgen _ h.archives

/-- **When a server starts.**  The checks always come to an end, and they find no error exactly
when everything is right that has to be.  Then the archives of the DATA.INI have all been loaded,
in the order of their indices. -/
theorem validateAndLoad_exact (p : Platform) (disk : StartDisk) (cfg : Settings) :
    ∃ grfs report, validateAndLoad p disk cfg = .ok (grfs, report) ∧
      (report.errors = [] ↔ Startable p disk cfg) ∧
      (Startable p disk cfg → ∀ doc text, disk.readText cfg.dataIniPath = some text →
        DataIni.Written doc text → ∃ arranged, DataIni.Arranged (DataIni.indexed doc) arranged ∧
          List.Forall₂ (Opens p disk cfg) (arranged.map Prod.snd) grfs) := by
  obtain ⟨report, hload, herrors⟩ := validateAndLoad_spec p disk cfg
  refine ⟨_, report, hload, herrors, fun h doc text htext hwritten => ?_⟩
  refine ⟨_, DataIni.arranged_arrange _, ?_⟩
  have hlisted : listed disk cfg =
      (DataIni.arrange (DataIni.indexed doc)).map Prod.snd := by
    rw [listed, htext, Option.map_some, Option.getD_some, DataIni.parseDataIni_eq hwritten]
  rw [← hlisted]
  exact forall₂_opened h

end

end Validator
end RemoteClient

/-
# The files a request can name

A request spells a path; the filter judges it, and the server joins it to its directories.  Below
the root and the static tree this names public files.  The override directory and the client
directories get the path without its first part, which the filter has judged with the others: no
hidden file and no container is named there, but what is left may start with any name
(`Config.Names`).  So a request names nothing in the root's logs and resources exactly when these
directories do not lead there (`public_paths_named_iff`).

The client directories may hold links, so what a name there leads to is up to the file system.
-/
import RemoteClient.Etags

namespace RemoteClient

/-! ## Names below the directories -/

/-- The paths that a request can name. -/
inductive Config.Names (cfg : Config) : PathBuf → Prop
  | root {parts : List Str} (h : Public parts) : Names cfg (cfg.root ++ parts)
  | static {parts : List Str} (h : Public parts) : Names cfg (cfg.robrowserPath ++ parts)
  /-- The precompressed files beside a static one. -/
  | sibling {parts : List Str} (h : Public parts) {p : Str × Str}
      (hp : p ∈ Client.precompressed) :
      Names cfg (pushSuffix (cfg.robrowserPath ++ parts) ('.' :: p.2))
  | dataOverride {dir : PathBuf} {parts : List Str} (hdir : cfg.dataOverridePath = some dir)
      (h : Clean parts) : Names cfg (dir ++ parts)
  | clientDirectory {dir : PathBuf} {parts : List Str}
      (hdir : cfg.bgmPath = some dir ∨ cfg.aiPath = some dir) (h : Clean parts) :
      Names cfg (dir ++ parts)

/-- In the folder of the logs or the resources of the root, in any case. -/
def Config.InPrivate (cfg : Config) (path : PathBuf) : Prop :=
  ∃ part rest, path = cfg.root ++ part :: rest ∧
    (asciiLower part = "logs".toList ∨ asciiLower part = "resources".toList)

/-- The paths that a request is to name. -/
structure Config.Nameable (cfg : Config) (path : PathBuf) : Prop where
  names : cfg.Names path
  notPrivate : ¬cfg.InPrivate path

/-- What the actions of a request are to name, where `links` says what a path leads to. -/
def Config.MayName (cfg : Config) (links : PathBuf → PathBuf → Prop) : Action → Prop
  | .isFile path => cfg.Nameable path ∨ ∃ name, cfg.Nameable name ∧ links name path
  | .read path => cfg.Nameable path ∨ ∃ name, cfg.Nameable name ∧ links name path
  | .metadata path => cfg.Nameable path
  | .canonicalize path => cfg.Nameable path
  -- what is written lies below the server root
  | .extract path _ => ∃ parts, path = cfg.root ++ parts ∧ Public parts
  | _ => True

/-- A path leads where `links` says. -/
def Follows (links : PathBuf → PathBuf → Prop) : (a : Action) → a.Answer → Prop
  | .canonicalize path, r => ∀ file, r = some file → links path file
  | _, _ => True

/-! ## The private folders -/

namespace Config.InPrivate

variable {cfg : Config} {path : PathBuf}

lemma append (h : cfg.InPrivate path) (rest : PathBuf) : cfg.InPrivate (path ++ rest) := by
  obtain ⟨part, tail, rfl, hpart⟩ := h
  exact ⟨part, tail ++ rest, by rw [List.append_assoc, List.cons_append], hpart⟩

/-- Only the last name tells whether the folders themselves are meant. -/
lemma of_snoc {name : Str} (h : cfg.InPrivate (path ++ [name])) :
    cfg.InPrivate path ∨ asciiLower name = "logs".toList ∨ asciiLower name = "resources".toList := by
  obtain ⟨part, rest, heq, hpart⟩ := h
  rcases List.eq_nil_or_concat rest with rfl | ⟨init, last, rfl⟩
  · obtain ⟨-, hname⟩ := List.append_inj' heq rfl
    rw [(List.cons.inj hname).1]
    exact .inr hpart
  · rw [List.concat_eq_append, ← List.cons_append, ← List.append_assoc] at heq
    exact .inl ⟨part, init, (List.append_inj' heq rfl).1, hpart⟩

lemma of_page (h : cfg.InPrivate (path ++ ["index.html".toList])) : cfg.InPrivate path :=
  h.of_snoc.resolve_right (by decide)

lemma of_sibling {p : Str × Str} (hp : p ∈ Client.precompressed)
    (h : cfg.InPrivate (pushSuffix path ('.' :: p.2))) : cfg.InPrivate path := by
  -- A name behind which the extension of a sibling stands is neither of the two.
  have hname : ∀ name : Str, ¬(asciiLower (name ++ '.' :: p.2) = "logs".toList ∨
      asciiLower (name ++ '.' :: p.2) = "resources".toList) := by
    intro name hname
    rw [asciiLower, List.map_append] at hname
    have hlast : ∀ text : Str, name.map Char.toLower ++ ('.' :: p.2).map Char.toLower = text →
        ('.' :: p.2).map Char.toLower <:+ text := by
      rintro text rfl
      exact List.suffix_append _ _
    have hsuffix := hname.imp (hlast _) (hlast _)
    simp only [Client.precompressed, List.mem_cons, List.not_mem_nil, or_false] at hp
    rcases hp with rfl | rfl
    · exact absurd hsuffix (by decide)
    · exact absurd hsuffix (by decide)
  unfold pushSuffix at h
  rcases List.eq_nil_or_concat path with rfl | ⟨init, last, rfl⟩
  · have hnone : ¬cfg.InPrivate [] := by
      rintro ⟨part, rest, hnil, -⟩
      exact absurd hnil (by simp)
    have hsnoc : cfg.InPrivate ([] ++ ['.' :: p.2]) := h
    exact absurd (hsnoc.of_snoc.resolve_left hnone) (hname [])
  · rw [List.concat_eq_append] at h ⊢
    rw [List.getLast?_concat, List.dropLast_concat] at h
    exact (h.of_snoc.resolve_right (hname last)).append [last]

end Config.InPrivate

/-! ## Parts of public paths -/

lemma clean_nil : Clean [] where
  names := fun _ h => absurd h (by simp)
  last := fun _ h => absurd h (by simp)

lemma Public.name {part : Str} (hname : IsName part) (hcontainer : ¬IsContainer part)
    (hlogs : asciiLower part ≠ "logs".toList) (hresources : asciiLower part ≠ "resources".toList) :
    Public [part] where
  names := fun _ hp => List.mem_singleton.mp hp ▸ hname
  last := fun _ hp => Option.some.inj hp ▸ hcontainer
  first := fun _ hp => Option.some.inj hp ▸ ⟨hlogs, hresources⟩

/-- A public file in a public directory is public. -/
lemma Public.append {parts : List Str} {part : Str} (h : Public parts) (hpart : Public [part]) :
    Public (parts ++ [part]) where
  names := fun p hp => (List.mem_append.mp hp).elim (h.names p) (hpart.names p)
  last := fun p hp => hpart.last p (by rwa [List.getLast?_concat] at hp)
  first := fun p hp => by
    rw [List.head?_append] at hp
    cases hhead : parts.head? with
    | none =>
      rw [hhead] at hp
      exact hpart.first p hp
    | some first =>
      rw [hhead] at hp
      exact h.first p (hhead.trans hp)

instance (part : Str) : Decidable (IsContainer part) :=
  inferInstanceAs (Decidable (_ ∨ _ ∨ _))

lemma public_indexPage : Public ["index.html".toList] :=
  .name ⟨by decide, by decide, by decide, by decide, by decide⟩ (by decide) (by decide) (by decide)

lemma public_generated {relative name : Str} (h : Client.generatedName relative = some name) :
    Public [name] := by
  unfold Client.generatedName at h
  split at h
  · rw [← Option.some.inj h]
    exact public_indexPage
  · split at h
    · rw [← Option.some.inj h]
      exact .name ⟨by decide, by decide, by decide, by decide, by decide⟩ (by decide) (by decide)
        (by decide)
    · exact absurd h (by simp)

/-- Behind a separator the parts of a path are those of what is left. -/
lemma pathParts_drop {path : Str} {i : ℕ} {sep : Char} (hi : path[i]? = some sep)
    (hsep : sep = '/' ∨ sep = '\\') : pathParts (path.drop (i + 1)) <:+ pathParts path := by
  have hpath : path = path.take i ++ sep :: path.drop (i + 1) := by
    obtain ⟨hlt, rfl⟩ := List.getElem?_eq_some_iff.mp hi
    rw [List.getElem_cons_drop, List.take_append_drop]
  have hforward : toForward path = toForward (path.take i) ++ '/' :: toForward (path.drop (i + 1)) := by
    conv_lhs => rw [hpath]
    unfold toForward
    rw [List.map_append, List.map_cons]
    rcases hsep with rfl | rfl <;> rfl
  unfold pathParts
  rw [hforward, List.splitOn_append_cons_self]
  exact List.suffix_append _ _

/-- What `stripLeadingData` leaves are the last parts of the path. -/
lemma pathParts_stripLeadingData (path : Str) :
    pathParts (stripLeadingData path) <:+ pathParts path := by
  have hfourth : ∀ (start : Str) (sep : Char), start[4]? = some sep → sep.isAlpha = false →
      start.isPrefixOf (asciiLower path) = true → path[4]? = some sep := by
    intro start sep hstart hsep h
    obtain ⟨rest, hrest⟩ := List.isPrefixOf_iff_prefix.mp h
    have hlower : (asciiLower path)[4]? = some sep := by
      rw [← hrest, List.getElem?_append_left (List.getElem?_eq_some_iff.mp hstart).1, hstart]
    rw [asciiLower, List.getElem?_map] at hlower
    obtain ⟨ch, hch, hlower⟩ := Option.map_eq_some_iff.mp hlower
    rw [hch, (Text.toLower_eq_iff hsep).mp hlower]
  simp only [stripLeadingData]
  split
  · next hdata =>
    rcases (Bool.or_eq_true _ _).mp hdata with hdata | hdata
    · exact pathParts_drop (hfourth _ '/' rfl (by decide) hdata) (.inl rfl)
    · exact pathParts_drop (hfourth _ '\\' rfl (by decide) hdata) (.inr rfl)
  · exact List.suffix_refl _

/-- What is behind the name of a client directory are the last parts of the path. -/
lemma pathParts_clientDirectory {c : Client} {path : Str} {dir : PathBuf} {relative : Str}
    (h : c.clientDirectory path = some (dir, relative)) :
    pathParts relative <:+ pathParts path ∧
      (c.cfg.bgmPath = some dir ∨ c.cfg.aiPath = some dir) := by
  unfold Client.clientDirectory at h
  split at h
  · exact absurd h (by simp)
  · next first rest hsplit =>
    have hrest : (rest = relative) ∧ (c.cfg.bgmPath = some dir ∨ c.cfg.aiPath = some dir) := by
      split at h
      · obtain ⟨dir', hdir, heq⟩ := Option.map_eq_some_iff.mp h
        obtain ⟨rfl, rfl⟩ := Prod.mk.inj heq
        exact ⟨rfl, .inl hdir⟩
      · split at h
        · obtain ⟨dir', hdir, heq⟩ := Option.map_eq_some_iff.mp h
          obtain ⟨rfl, rfl⟩ := Prod.mk.inj heq
          exact ⟨rfl, .inr hdir⟩
        · exact absurd h (by simp)
    obtain ⟨rfl, hdir⟩ := hrest
    -- The slashes were turned before the split, so turning those of the rest changes nothing.
    refine ⟨?_, hdir⟩
    have hpath := (splitOnce_eq_some_iff.mp hsplit).1
    have hrest : toForward rest = rest := by
      have htwice := toForward_toForward path
      rw [hpath] at htwice
      unfold toForward at htwice
      rw [List.map_append, List.map_cons] at htwice
      exact (List.cons.inj (List.append_inj_right htwice (by simp))).2
    unfold pathParts
    rw [hrest, hpath, List.splitOn_append_cons_self]
    exact List.suffix_append _ _

/-! ## Names below each directory -/

/-- A directory other than the root does not complete the path to one of a private folder. -/
structure Client.Apart (c : Client) (gameData : Bool) (path : Str) : Prop where
  client : gameData = true → ∀ dir relative q, c.clientDirectory path = some (dir, relative) →
    safeJoin dir relative = some q → ¬c.cfg.InPrivate q
  dataOverride : ∀ dir q, c.cfg.dataOverridePath = some dir →
    safeJoin dir (stripLeadingData path) = some q → ¬c.cfg.InPrivate q

/-- The static tree does not complete the path to one of a private folder. -/
def Client.StaticApart (c : Client) (path : Str) : Prop :=
  c.cfg.enableStaticServe = true → ∀ q, safeJoin c.cfg.robrowserPath path = some q →
    ¬c.cfg.InPrivate q

namespace Config.Nameable

variable {c : Client} {path : Str} {q : PathBuf}

/-- Below the root, a public path is no path of a private folder. -/
lemma of_public {parts : List Str} (h : Public parts) : c.cfg.Nameable (c.cfg.root ++ parts) where
  names := .root h
  notPrivate := by
    rintro ⟨part, rest, heq, hpart⟩
    obtain rfl := List.append_cancel_left heq
    obtain ⟨hlogs, hresources⟩ := h.first part rfl
    exact hpart.elim hlogs hresources

lemma of_root (hpublic : publicAssetPath path = true) (h : safeJoin c.cfg.root path = some q) :
    c.cfg.Nameable q := by
  obtain ⟨parts, rfl, hparts⟩ := safeJoin_public hpublic h
  exact of_public hparts

/-- A directory of the static tree is served by its page. -/
lemma of_static (hpublic : publicAssetPath path = true)
    (hapart : ∀ q, safeJoin c.cfg.robrowserPath path = some q → ¬c.cfg.InPrivate q) :
    ∀ q, safeJoin c.cfg.robrowserPath path = some q →
      Serves c.cfg.Nameable q ∧ Serves c.cfg.Nameable (q ++ ["index.html".toList]) := by
  intro q hjoin
  have hq := hapart q hjoin
  obtain ⟨parts, rfl, hparts⟩ := safeJoin_public hpublic hjoin
  have hpage := hparts.append public_indexPage
  have hqpage : ¬c.cfg.InPrivate (c.cfg.robrowserPath ++ (parts ++ ["index.html".toList])) := by
    rw [← List.append_assoc]
    exact fun h => hq h.of_page
  rw [List.append_assoc]
  exact ⟨⟨⟨.static hparts, hq⟩, fun _ hp => ⟨.sibling hparts hp, fun h => hq (h.of_sibling hp)⟩⟩,
    ⟨.static hpage, hqpage⟩, fun _ hp => ⟨.sibling hpage hp, fun h => hqpage (h.of_sibling hp)⟩⟩

lemma of_override {gameData : Bool} (hpublic : publicAssetPath path = true)
    (hapart : c.Apart gameData path)
    (h : (c.cfg.dataOverridePath.bind fun dir => safeJoin dir (stripLeadingData path)) = some q) :
    c.cfg.Nameable q := by
  obtain ⟨dir, hdir, hjoin⟩ := Option.bind_eq_some_iff.mp h
  have hq := hapart.dataOverride dir q hdir hjoin
  obtain ⟨rfl, hclean⟩ := safeJoin_clean hpublic (pathParts_stripLeadingData path) hjoin
  exact ⟨.dataOverride hdir hclean, hq⟩

lemma of_clientDirectory (hpublic : publicAssetPath path = true) (hapart : c.Apart true path)
    {dir : PathBuf} {relative : Str} (hdir : c.clientDirectory path = some (dir, relative))
    (h : safeJoin dir relative = some q) : c.cfg.Nameable dir ∧ c.cfg.Nameable q := by
  have hq := hapart.client rfl dir relative q hdir h
  obtain ⟨hsuffix, hdir⟩ := pathParts_clientDirectory hdir
  obtain ⟨rfl, hclean⟩ := safeJoin_clean hpublic hsuffix h
  have hnames : c.cfg.Names (dir ++ []) := .clientDirectory hdir clean_nil
  rw [List.append_nil] at hnames
  exact ⟨⟨hnames, fun hprivate => hq (hprivate.append _)⟩, .clientDirectory hdir hclean, hq⟩

end Config.Nameable

/-! ## The programs -/

section

variable {c : Client} {links : PathBuf → PathBuf → Prop} {path : Str}

/-- A program that names what a request may name. -/
abbrev NamesOnly {α : Type} (c : Client) (links : PathBuf → PathBuf → Prop) (p : Work α) : Prop :=
  p.Within (Follows links) (c.cfg.MayName links) fun _ => True

lemma namesOnly_store (key : Str) (content : List Byte) (source : Source) :
    NamesOnly c links (Client.store key content source) :=
  ⟨trivial, fun _ _ => trivial⟩

lemma namesOnly_resolveArchive (hpublic : publicAssetPath path = true) (key : Str) :
    NamesOnly c links (c.resolveArchive key path) := by
  unfold Client.resolveArchive
  split
  · trivial
  · exact ⟨trivial, fun _ _ => trivial⟩
  · split
    · next content _ =>
      split
      · refine Prog.Within.bind (P := fun _ => True) ?_ fun _ _ => namesOnly_store key content _
        unfold Client.extractFile
        split
        · trivial
        · next q hjoin => exact ⟨safeJoin_public hpublic hjoin, fun _ _ => trivial⟩
      · exact namesOnly_store key content _
    · exact ⟨trivial, fun _ _ => trivial⟩
    · trivial
    · trivial

lemma namesOnly_resolveGameData (hpublic : publicAssetPath path = true) (key : Str)
    (gameData : Bool) : NamesOnly c links (c.resolveGameData key path gameData) := by
  unfold Client.resolveGameData
  split
  · exact namesOnly_resolveArchive hpublic key
  · trivial

/-- A file is read under a name, or where a name leads. -/
lemma namesOnly_storeFile (key : Str) {q : PathBuf} (source : Source) {next : Work Resolved}
    (hq : c.cfg.Nameable q ∨ ∃ name, c.cfg.Nameable name ∧ links name q)
    (hnext : NamesOnly c links next) :
    NamesOnly c links (Client.storeFile key q source next) := by
  refine ⟨hq, fun content _ => ?_⟩
  cases content with
  | some content => exact namesOnly_store key content source
  | none => exact hnext

lemma namesOnly_resolveOverride (hpublic : publicAssetPath path = true) (key : Str)
    {gameData : Bool} (hapart : c.Apart gameData path) :
    NamesOnly c links (c.resolveOverride key path gameData) := by
  have hnext : NamesOnly c links (c.resolveGameData key path gameData) :=
    namesOnly_resolveGameData hpublic key gameData
  unfold Client.resolveOverride
  split
  · exact hnext
  · next q hjoin =>
    have hq := Config.Nameable.of_override hpublic hapart hjoin
    refine ⟨.inl hq, fun isFile _ => ?_⟩
    cases isFile with
    | true => exact namesOnly_storeFile key _ (.inl hq) hnext
    | false => exact hnext

/-- What `confinedFile` finds is where a name leads. -/
lemma confinedFile_names (hpublic : publicAssetPath path = true) (hapart : c.Apart true path)
    {dir : PathBuf} {relative : Str} (hdir : c.clientDirectory path = some (dir, relative)) :
    (Client.confinedFile dir relative).Within (Follows links) (c.cfg.MayName links)
      fun found => ∀ file, found = some file → ∃ name, c.cfg.Nameable name ∧ links name file := by
  have hnone : ∀ file, (none : Option PathBuf) = some file →
      ∃ name, c.cfg.Nameable name ∧ links name file := fun file heq => absurd heq (by simp)
  unfold Client.confinedFile
  split
  · exact hnone
  · next candidate hjoin =>
    obtain ⟨hbase, hcandidate⟩ := Config.Nameable.of_clientDirectory hpublic hapart hdir hjoin
    refine ⟨hbase, fun base _ => ?_⟩
    cases base with
    | none => exact hnone
    | some base =>
      refine ⟨hcandidate, fun file hfile => ?_⟩
      cases file with
      | none => exact hnone
      | some file =>
        have hlinks : links candidate file := hfile file rfl
        change Prog.Within _ _ _ (if base.isPrefixOf file then _ else _)
        -- The canonical file must still lie below the canonical directory.
        split
        · refine ⟨.inr ⟨candidate, hcandidate, hlinks⟩, fun isFile _ => ?_⟩
          cases isFile with
          | true =>
            rintro found heq
            rw [← Option.some.inj heq]
            exact ⟨candidate, hcandidate, hlinks⟩
          | false => exact hnone
        · exact hnone

lemma namesOnly_resolveClientDirectory (hpublic : publicAssetPath path = true) (key : Str)
    {gameData : Bool} (hapart : c.Apart gameData path) :
    NamesOnly c links (c.resolveClientDirectory key path gameData) := by
  have hnext : NamesOnly c links (c.resolveOverride key path gameData) :=
    namesOnly_resolveOverride hpublic key hapart
  unfold Client.resolveClientDirectory
  split
  · exact hnext
  · next dir relative hdir =>
    obtain ⟨hclient, hgame⟩ := Option.filter_eq_some_iff.mp hdir
    obtain rfl : gameData = true := hgame
    refine (confinedFile_names hpublic hapart hclient).bind fun found hfound => ?_
    cases found with
    | some file => exact namesOnly_storeFile key _ (.inr (hfound file rfl)) hnext
    | none => exact hnext

lemma namesOnly_resolveWith {path : Str} {gameData : Bool}
    (hapart : c.looksFor path = true → c.Apart gameData path) :
    NamesOnly c links (c.resolveWith path gameData) := by
  unfold Client.resolveWith
  split
  · trivial
  · next hpublic =>
    rw [Bool.not_eq_true', Bool.not_eq_false] at hpublic
    split
    · trivial
    · next q hjoin =>
      have hapart := hapart (by rw [Client.looksFor, hpublic, hjoin]; rfl)
      have hq := Config.Nameable.of_root hpublic hjoin
      have hlocal : NamesOnly c links (c.resolveLocal (c.cacheKey path) path q gameData) := by
        have hnext : NamesOnly c links
            (c.resolveClientDirectory (c.cacheKey path) path gameData) :=
          namesOnly_resolveClientDirectory hpublic _ hapart
        refine ⟨.inl hq, fun isFile _ => ?_⟩
        cases isFile with
        | true => exact namesOnly_storeFile _ _ (.inl hq) hnext
        | false => exact hnext
      split
      · refine ⟨trivial, fun hit _ => ?_⟩
        cases hit with
        | some file => trivial
        | none => exact hlocal
      · exact hlocal

lemma namesOnly_getFileWith {path : Str} {gameData : Bool}
    (hapart : c.looksFor path = true → c.Apart gameData path) :
    NamesOnly c links (c.getFileWith path gameData) := by
  have hjoined : NamesOnly c links (Client.joined <$> c.resolveWith path gameData) :=
    (namesOnly_resolveWith hapart).bind fun _ _ => trivial
  unfold Client.getFileWith
  cases gameData with
  | true =>
    refine Prog.Within.bind (P := fun _ => True) ?_ fun hit _ => ?_
    · unfold Client.cached
      split
      · trivial
      · exact ⟨trivial, fun _ _ => trivial⟩
    · cases hit with
      | some file => trivial
      | none => exact hjoined
  | false => exact hjoined

lemma namesOnly_fetchFiles {gameData : Bool} {files : List Str}
    (hapart : ∀ path ∈ files, c.looksFor path = true → c.Apart gameData path)
    (results : Std.TreeMap Str Str) : NamesOnly c links (c.fetchFiles gameData files results) := by
  induction files generalizing results with
  | nil => trivial
  | cons path files ih =>
    have hrest := ih fun path hpath => hapart path (List.mem_cons_of_mem _ hpath)
    refine (namesOnly_getFileWith (hapart path List.mem_cons_self)).bind fun file _ => ?_
    cases file with
    | some file => exact hrest _
    | none => exact hrest _

/-- Making an encoding touches no file. -/
lemma namesOnly_serveAsset (headers : HeaderMap) (path : Str) (file : CachedFile) :
    NamesOnly c links (c.serveAsset headers path file) := by
  simp only [Client.serveAsset]
  split
  · trivial
  · next coding _ =>
    split
    · trivial
    · refine Prog.Within.bind (P := fun _ => True) ?_ fun made _ => ?_
      · refine ⟨trivial, fun done _ => ?_⟩
        cases done with
        | some done => trivial
        | none =>
          change NamesOnly c links (if !c.keeps file.data.length then _ else _)
          split
          · trivial
          · refine ⟨trivial, fun r _ => ?_⟩
            match r with
            | (some bytes, true) => exact ⟨trivial, fun _ _ => trivial⟩
            | (some bytes, false) => trivial
            | (none, _) => trivial
      · cases made <;> trivial

lemma LooksAt.mayName {a : Action} (h : LooksAt c.cfg.Nameable a) : c.cfg.MayName links a := by
  cases a with
  | isFile | read => exact .inl h
  | metadata => exact h
  | _ => exact absurd h (by simp [LooksAt])

lemma nameable_indexPage : c.cfg.Nameable c.indexPage := .of_public public_indexPage

lemma namesOnly_serveFile (headers : HeaderMap) (hpublic : publicAssetPath path = true)
    {gameData : Bool} (hstatic : c.StaticApart path)
    (hapart : path ≠ [] → c.looksFor path = true → c.Apart gameData path) :
    NamesOnly c links (c.serveFile headers path gameData) := by
  have hfallback : NamesOnly c links (c.serveFallback headers path gameData) := by
    unfold Client.serveFallback
    split
    · exact (serveRoot_looks headers nameable_indexPage).within (fun _ ha => ha.mayName)
        fun _ _ => trivial
    · next hne =>
      refine (namesOnly_getFileWith (hapart hne)).bind fun file _ => ?_
      cases file with
      | some file => exact namesOnly_serveAsset headers path file
      | none => trivial
  unfold Client.serveFile
  split
  · next henabled =>
    have hserves := Config.Nameable.of_static hpublic (hstatic henabled)
    refine ((serveStatic_looks headers hserves).within
      (fun _ ha => ha.mayName) fun _ _ => trivial).bind (P := fun _ => True) fun response _ => ?_
    cases response with
    | some response => trivial
    | none => exact hfallback
  · exact hfallback

lemma namesOnly_serveGet (headers : HeaderMap) (path : Str) {gameData : Bool}
    (hstatic : publicAssetPath path = true → c.StaticApart path)
    (hapart : path ≠ [] → c.looksFor path = true → c.Apart gameData path) :
    NamesOnly c links (c.serveGet headers path gameData) := by
  unfold Client.serveGet
  split
  · trivial
  · next hpublic =>
    rw [Bool.not_eq_true', Bool.not_eq_false] at hpublic
    have hfile : NamesOnly c links (c.serveFile headers path gameData) :=
      namesOnly_serveFile headers hpublic (hstatic hpublic) hapart
    split
    · exact hfile
    · next name hname =>
      refine ⟨.inl (.of_public (public_generated hname)), fun bytes _ => ?_⟩
      cases bytes with
      | some bytes => trivial
      | none => exact hfile

/-- No directory beside the root completes a path that the request asks for to one of a private
folder: neither the static tree nor, for a path that is looked for, the others. -/
def Client.KeepsApart (c : Client) (r : Request) : Prop :=
  match r.endpoint with
  | .batch files => files.getD [] ≠ [] → (files.getD []).length ≤ Client.maxBatchFiles →
    ∀ path ∈ files.getD [], c.looksFor path = true → c.Apart (r.gameData c.cfg) path
  | .path method rawPath => method ≠ .other →
    (publicAssetPath (c.decoded rawPath) = true → c.StaticApart (c.decoded rawPath)) ∧
    (c.decoded rawPath ≠ [] → c.looksFor (c.decoded rawPath) = true →
      c.Apart (r.gameData c.cfg) (c.decoded rawPath))
  | _ => True

lemma namesOnly_handle {r : Request} (h : c.KeepsApart r) : NamesOnly c links (c.handle r) := by
  unfold Client.KeepsApart at h
  unfold Client.handle
  split
  · trivial
  · trivial
  · next files hendpoint =>
    rw [hendpoint] at h
    refine Prog.Within.bind (P := fun _ => True) ?_ fun _ _ => trivial
    simp only [Client.serveBatch]
    split
    · trivial
    · next hgood =>
      obtain ⟨hne, hmax⟩ := not_or.mp hgood
      exact (namesOnly_fetchFiles (h hne (not_lt.mp hmax)) _).bind fun _ _ => trivial
  · next method rawPath hendpoint =>
    rw [hendpoint] at h
    refine Prog.Within.bind (P := fun _ => True) ?_ fun _ _ => trivial
    unfold Client.servePath
    split
    · trivial
    · next hmethod =>
      obtain ⟨hstatic, hapart⟩ := h hmethod
      exact (namesOnly_serveGet _ _ hstatic hapart).bind fun _ _ => trivial

end

/-! ## What is looked at when nothing is found -/

/-- No file is there, and no path is a link. -/
def missAnswer : (a : Action) → a.Answer
  | .cacheGet _ => none
  | .cacheInsert _ data => ⟨data, [], 0⟩
  | .addEncoding _ _ _ => ()
  | .slotGet _ _ => none
  | .slotInit _ _ value => (value, false)
  | .isFile _ => false
  | .read _ => none
  | .metadata _ => none
  | .canonicalize path => some path
  | .extract _ _ => ()
  | .logMissing _ => ()

section

variable {c : Client} {path : Str} {gameData : Bool} {q : PathBuf} {a : Action}

lemma eval_confinedFile (root : PathBuf) (rel : Str) :
    (Client.confinedFile root rel).eval missAnswer = none := by
  unfold Client.confinedFile
  cases safeJoin root rel with
  | none => rfl
  | some candidate =>
    change (if root.isPrefixOf candidate = true then _ else _ : Work (Option PathBuf)).eval _ = _
    split
    · rfl
    · rfl

lemma looks_override {dir : PathBuf} (hdir : c.cfg.dataOverridePath = some dir)
    (hjoin : safeJoin dir (stripLeadingData path) = some q) (key : Str) :
    .isFile q ∈ (c.resolveOverride key path gameData).actions missAnswer := by
  unfold Client.resolveOverride
  rw [hdir, Option.bind_some, hjoin]
  exact List.mem_cons_self

lemma looks_client {dir : PathBuf} {relative : Str}
    (hdir : c.clientDirectory path = some (dir, relative)) (hjoin : safeJoin dir relative = some q)
    (key : Str) :
    .canonicalize q ∈ (c.resolveClientDirectory key path true).actions missAnswer := by
  have hconfined : .canonicalize q ∈ (Client.confinedFile dir relative).actions missAnswer := by
    unfold Client.confinedFile
    rw [hjoin]
    exact List.mem_cons_of_mem _ List.mem_cons_self
  unfold Client.resolveClientDirectory
  rw [hdir]
  change _ ∈ (Client.confinedFile dir relative >>= _).actions missAnswer
  rw [Prog.actions_bind]
  exact List.mem_append_left _ hconfined

lemma looks_resolveClientDirectory {key : Str}
    (h : a ∈ (c.resolveOverride key path gameData).actions missAnswer) :
    a ∈ (c.resolveClientDirectory key path gameData).actions missAnswer := by
  unfold Client.resolveClientDirectory
  split
  · exact h
  · next dir relative _ =>
    change _ ∈ (Client.confinedFile dir relative >>= _).actions missAnswer
    rw [Prog.actions_bind, eval_confinedFile]
    exact List.mem_append_right _ h

lemma looks_resolveWith (hlooks : c.looksFor path = true)
    (h : a ∈ (c.resolveClientDirectory (c.cacheKey path) path gameData).actions missAnswer) :
    a ∈ (c.resolveWith path gameData).actions missAnswer := by
  rw [Client.looksFor, Bool.and_eq_true, Option.isSome_iff_exists] at hlooks
  obtain ⟨hpublic, root, hjoin⟩ := hlooks
  have hlocal : a ∈ (c.resolveLocal (c.cacheKey path) path root gameData).actions missAnswer :=
    List.mem_cons_of_mem _ h
  unfold Client.resolveWith
  rw [hpublic, hjoin]
  cases gameData with
  | true => exact List.mem_cons_of_mem _ hlocal
  | false => exact hlocal

lemma looks_getFileWith (hlooks : c.looksFor path = true)
    (h : a ∈ (c.resolveWith path gameData).actions missAnswer) :
    a ∈ (c.getFileWith path gameData).actions missAnswer := by
  have hjoined : a ∈ (Client.joined <$> c.resolveWith path gameData).actions missAnswer := by
    rw [Prog.map_eq_bind, Prog.actions_bind]
    exact List.mem_append_left _ h
  rw [Client.looksFor, Bool.and_eq_true] at hlooks
  cases gameData with
  | true =>
    change _ ∈ (c.getFile path).actions missAnswer
    unfold Client.getFile Client.cached
    rw [hlooks.1]
    exact List.mem_cons_of_mem _ hjoined
  | false => exact hjoined

lemma looks_fetchFiles {files : List Str} (hpath : path ∈ files)
    (h : a ∈ (c.getFileWith path gameData).actions missAnswer) (results : Std.TreeMap Str Str) :
    a ∈ (c.fetchFiles gameData files results).actions missAnswer := by
  induction files generalizing results with
  | nil => exact absurd hpath List.not_mem_nil
  | cons first files ih =>
    change _ ∈ (c.getFileWith first gameData >>= _).actions missAnswer
    rw [Prog.actions_bind]
    rcases List.mem_cons.mp hpath with rfl | hpath
    · exact List.mem_append_left _ h
    · refine List.mem_append_right _ ?_
      split
      · exact ih hpath _
      · exact ih hpath _

/-- What is named when every look misses is to be named. -/
lemma nameable_of_looks {α : Type} {p : Work α}
    (h : ∀ links, NamesOnly c links p) (ha : a ∈ p.actions missAnswer) :
    c.cfg.MayName (fun path file => file = path) a := by
  refine (h _).actions (fun a => ?_) a ha
  cases a with
  | canonicalize path => exact fun file hfile => (Option.some.inj hfile).symm
  | _ => trivial

lemma nameable_of_isFile (h : c.cfg.MayName (fun path file => file = path) (.isFile q)) :
    c.cfg.Nameable q := by
  rcases h with h | ⟨name, h, rfl⟩
  · exact h
  · exact h

/-- A path that is looked for leads out of the private folders if all names do. -/
lemma apart_of_looks (h : ∀ a ∈ (c.getFileWith path gameData).actions missAnswer,
      c.cfg.MayName (fun path file => file = path) a) (hlooks : c.looksFor path = true) :
    c.Apart gameData path where
  client := by
    rintro rfl dir relative q hdir hjoin
    exact (h _ (looks_getFileWith hlooks
      (looks_resolveWith hlooks (looks_client hdir hjoin _)))).notPrivate
  dataOverride := by
    intro dir q hdir hjoin
    exact (nameable_of_isFile (h _ (looks_getFileWith hlooks (looks_resolveWith hlooks
      (looks_resolveClientDirectory (looks_override hdir hjoin _)))))).notPrivate

lemma eval_serveStatic (headers : HeaderMap) :
    (c.serveStatic headers path).eval missAnswer = none := by
  unfold Client.serveStatic
  cases safeJoin c.cfg.robrowserPath path with
  | none => rfl
  | some candidate => rfl

lemma looks_serveStatic {headers : HeaderMap} (henabled : c.cfg.enableStaticServe = true)
    (hjoin : safeJoin c.cfg.robrowserPath path = some q) :
    .metadata q ∈ (c.serveFile headers path gameData).actions missAnswer := by
  have hstatic : .metadata q ∈ (c.serveStatic headers path).actions missAnswer := by
    unfold Client.serveStatic
    rw [hjoin]
    exact List.mem_cons_self
  unfold Client.serveFile
  rw [if_pos henabled, Prog.actions_bind]
  exact List.mem_append_left _ hstatic

lemma looks_serveFile {headers : HeaderMap} (hne : path ≠ [])
    (h : a ∈ (c.getFileWith path gameData).actions missAnswer) :
    a ∈ (c.serveFile headers path gameData).actions missAnswer := by
  have hfallback : a ∈ (c.serveFallback headers path gameData).actions missAnswer := by
    unfold Client.serveFallback Client.serveResolved
    rw [if_neg hne, Prog.actions_bind]
    exact List.mem_append_left _ h
  unfold Client.serveFile
  split
  · rw [Prog.actions_bind, eval_serveStatic]
    exact List.mem_append_right _ hfallback
  · exact hfallback

lemma looks_path {r : Request} {method : Method} {rawPath : Str}
    (hendpoint : r.endpoint = .path method rawPath) (hmethod : method ≠ .other)
    (hpublic : publicAssetPath (c.decoded rawPath) = true)
    (h : a ∈ (c.serveFile r.headers (c.decoded rawPath) (r.gameData c.cfg)).actions missAnswer) :
    a ∈ (c.handle r).actions missAnswer := by
  have hget : a ∈ (c.serveGet r.headers (c.decoded rawPath) (r.gameData c.cfg)).actions
      missAnswer := by
    unfold Client.serveGet
    rw [hpublic]
    cases Client.generatedName (c.decoded rawPath) with
    | none => exact h
    | some name => exact List.mem_cons_of_mem _ h
  have hpath : a ∈ (c.servePath r.headers method rawPath (r.gameData c.cfg)).actions
      missAnswer := by
    unfold Client.servePath
    rw [if_neg hmethod]
    simp only [Prog.map_eq_bind]
    rw [Prog.actions_bind]
    exact List.mem_append_left _ hget
  unfold Client.handle
  rw [hendpoint]
  simp only [Prog.map_eq_bind]
  rw [Prog.actions_bind]
  exact List.mem_append_left _ hpath

lemma looks_batch {r : Request} {files : Option (List Str)} (hendpoint : r.endpoint = .batch files)
    (hne : files.getD [] ≠ []) (hmax : (files.getD []).length ≤ Client.maxBatchFiles)
    (hpath : path ∈ files.getD [])
    (h : a ∈ (c.getFileWith path (r.gameData c.cfg)).actions missAnswer) :
    a ∈ (c.handle r).actions missAnswer := by
  have hbatch : a ∈ (c.serveBatch r.headers files (r.gameData c.cfg)).actions missAnswer := by
    simp only [Client.serveBatch]
    rw [if_neg (not_or.mpr ⟨hne, not_lt.mpr hmax⟩), Prog.actions_bind]
    exact List.mem_append_left _ (looks_fetchFiles hpath h _)
  unfold Client.handle
  rw [hendpoint]
  simp only [Prog.map_eq_bind]
  rw [Prog.actions_bind]
  exact List.mem_append_left _ hbatch

lemma keepsApart_of_names {r : Request} (h : ∀ links, NamesOnly c links (c.handle r)) :
    c.KeepsApart r := by
  unfold Client.KeepsApart
  split
  · next files hendpoint =>
    intro hne hmax path hpath hlooks
    exact apart_of_looks (fun a ha => nameable_of_looks h
      (looks_batch hendpoint hne hmax hpath ha)) hlooks
  · next method rawPath hendpoint =>
    intro hmethod
    refine ⟨fun hpublic henabled q hjoin => ?_, fun hne hlooks => ?_⟩
    · have hq : c.cfg.MayName (fun path file => file = path) (.metadata q) := nameable_of_looks h
        (looks_path hendpoint hmethod hpublic (looks_serveStatic henabled hjoin))
      exact hq.notPrivate
    · have hpublic := hlooks
      rw [Client.looksFor, Bool.and_eq_true] at hpublic
      exact apart_of_looks (fun a ha => nameable_of_looks h
        (looks_path hendpoint hmethod hpublic.1 (looks_serveFile hne ha))) hlooks
  · trivial

end

/-- **The path filter and the path joiner see the same path, but not every directory gets it.**
What a public path is joined to is a public file of the directory.  And every file that a request
looks at or writes, whatever the file system answers, is one it is to name, exactly when no other
directory completes a path that it asks for to one of the root's private folders. -/
theorem public_paths_named_iff (c : Client) (r : Request) :
    (∀ (path : Str) (root q : PathBuf), publicAssetPath path = true →
      safeJoin root path = some q → ∃ parts, q = root ++ parts ∧ Public parts) ∧
    ((∀ links : PathBuf → PathBuf → Prop,
      (c.handle r).Within (Follows links) (c.cfg.MayName links) fun _ => True) ↔
        c.KeepsApart r) :=
  ⟨fun _ _ _ => safeJoin_public, keepsApart_of_names, fun h _ => namesOnly_handle h⟩

/-! ## Directories that are elsewhere -/

/-- Neither the root nor a directory that it lies in, and not in its private folders. -/
structure Config.Elsewhere (cfg : Config) (dir : PathBuf) : Prop where
  notAbove : ¬dir <+: cfg.root
  notPrivate : ¬cfg.InPrivate dir

lemma Config.Elsewhere.outside {cfg : Config} {dir q : PathBuf} (h : cfg.Elsewhere dir)
    (hq : dir <+: q) : ¬cfg.InPrivate q := by
  rintro ⟨part, rest, rfl, hpart⟩
  rcases List.prefix_or_prefix_of_prefix hq (List.prefix_append _ _) with habove | ⟨tail, rfl⟩
  · exact h.notAbove habove
  · have htail : tail <+: part :: rest := (List.prefix_append_right_inj _).mp hq
    cases tail with
    | nil => exact h.notAbove (by rw [List.append_nil])
    | cons first tail =>
      obtain rfl := (List.cons_prefix_cons.mp htail).1
      exact h.notPrivate ⟨first, tail, rfl, hpart⟩

/-- **With its directories elsewhere the server names nothing private**, whatever is asked. -/
lemma keepsApart_of_elsewhere {c : Client}
    (hstatic : c.cfg.enableStaticServe = true → c.cfg.Elsewhere c.cfg.robrowserPath)
    (hclient : ∀ dir, c.cfg.bgmPath = some dir ∨ c.cfg.aiPath = some dir → c.cfg.Elsewhere dir)
    (hoverride : ∀ dir, c.cfg.dataOverridePath = some dir → c.cfg.Elsewhere dir) (r : Request) :
    c.KeepsApart r := by
  have hapart : ∀ gameData path, c.Apart gameData path := fun gameData path =>
    { client := fun _ dir relative q hdir hjoin =>
        (hclient dir (pathParts_clientDirectory hdir).2).outside <| safeJoin_prefix hjoin
      dataOverride := fun dir q hdir hjoin => (hoverride dir hdir).outside <|
        safeJoin_prefix hjoin }
  unfold Client.KeepsApart
  split
  · exact fun _ _ path _ _ => hapart _ path
  · refine fun _ => ⟨fun _ henabled q hjoin => ?_, fun _ _ => hapart _ _⟩
    exact (hstatic henabled).outside <| safeJoin_prefix hjoin
  · trivial

/-! ## Samples -/

/-- The sample server with a translation. -/
def overrideClient (dir : PathBuf) : Client :=
  { sampleClient with cfg := { sampleClient.cfg with dataOverridePath := some dir } }

/-- The log of the missing files, as a request for data. -/
def logPath : Str := "data/logs/missing-files.log".toList

def logFile : PathBuf := [['s'], "logs".toList, "missing-files.log".toList]

/-- A disk with such a log. -/
def logDisk : FileSystem where
  node := fun path => if path = logFile then some (⟨false, true, 1, 0⟩, some [1]) else none
  canonicalize := some

/-- A request from elsewhere. -/
def logRequest : Request where
  loopback := false
  headers := {}
  endpoint := .path .get ('/' :: logPath)

/-- Doubled and mixed separators are skipped by both; and with the translation elsewhere, a request
for its logs is none for those of the root. -/
theorem public_paths_named_iff_sample :
    safeJoin [['s']] ['/', 'a', '\\', '/', 'b', '/'] = some [['s'], ['a'], ['b']] ∧
    (∃ parts, [['s'], ['a'], ['b']] = [['s']] ++ parts ∧ Public parts) ∧
    ((overrideClient [['o']]).handle logRequest).Within (Follows fun _ _ => False)
      ((overrideClient [['o']]).cfg.MayName fun _ _ => False) fun _ => True := by
  have hjoin : safeJoin [['s']] ['/', 'a', '\\', '/', 'b', '/'] = some [['s'], ['a'], ['b']] := by
    decide
  have hkeeps : (overrideClient [['o']]).KeepsApart logRequest := by
    refine keepsApart_of_elsewhere (fun henabled => absurd henabled (by decide))
      (fun dir hdir => absurd hdir (by simp [overrideClient, sampleClient])) ?_ logRequest
    rintro dir hdir
    obtain rfl := Option.some.inj hdir
    refine ⟨by decide, ?_⟩
    rintro ⟨part, rest, heq, -⟩
    exact absurd (List.cons.inj heq).1 (by decide)
  obtain ⟨hpublic, hnames⟩ := public_paths_named_iff (overrideClient [['o']]) logRequest
  exact ⟨hjoin, hpublic _ _ _ (by decide) hjoin, hnames.mpr hkeeps _⟩

/-- **The log is downloaded** where the override directory is the root: the filter judges the path
with its `data`, and the joiner gets the rest. -/
theorem log_downloaded :
    publicAssetPath logPath = true ∧ (overrideClient [['s']]).cfg.missingFilesLog = logFile ∧
    (((overrideClient [['s']]).handle logRequest).eval
      (firstAnswer logDisk ⟨[1], [], 0⟩)).map Response.body = some [1] ∧
    ¬∀ links : PathBuf → PathBuf → Prop, ((overrideClient [['s']]).handle logRequest).Within
      (Follows links) ((overrideClient [['s']]).cfg.MayName links) fun _ => True := by
  refine ⟨by decide, rfl, rfl, fun h => ?_⟩
  have hapart := (keepsApart_of_names h (by decide)).2 (by decide) (by decide)
  exact hapart.dataOverride [['s']] logFile rfl (by decide)
    ⟨"logs".toList, ["missing-files.log".toList], rfl, .inl (by decide)⟩

end RemoteClient

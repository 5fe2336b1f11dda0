/-
# What is packed is served

From the bytes that were added to an archive to the answer for a request.  `contents` are the
files that were packed, in the order of the archives.  The index leads a path to the first of them
that it names (`archiveData_packed`), nothing else has a source under its key
(`Unshadowed.data_eq`), and so it is what every request for the path is answered with, however
requests and warm-ups interleave (`answer_packed`).
-/
import RemoteClient.Grf.RoundTrip
import RemoteClient.Listing
import RemoteClient.Origins

namespace RemoteClient

open Exec Http Grf

/-! ## Packed archives -/

/-- An open archive that holds some items. -/
structure PackedGrf (T : TextLib) (z : Flate) (C : Crypto) where
  grf : Grf
  items : List Writer.Item
  holds : Writer.Holds T z C grf items

namespace PackedGrf

variable {T : TextLib} {z : Flate} {C : Crypto}

/-- The files of an archive, as they were packed. -/
def contents (packed : PackedGrf T z C) : List (Str × List Byte) :=
  (packed.items.filter Writer.Item.isFile).map fun item =>
    (packed.grf.stats.detectedEncoding.decode T item.name, item.data)

end PackedGrf

section

variable {T : TextLib} {z : Flate} {C : Crypto}

/-- The files of some archives, as they were packed. -/
def contents (packs : List (PackedGrf T z C)) : List (Str × List Byte) :=
  packs.flatMap PackedGrf.contents

/-- The first packed file that a path names. -/
def firstPacked (packs : List (PackedGrf T z C)) (path : Str) : Option (Str × List Byte) :=
  (contents packs).find? fun x => decide (AssetIndex.Names T path x.1)

/-- A listed file is a packed one: it has the name, and the content is read from its archive. -/
def IsPacked (C : Crypto) (z : Flate) (grfs : List Grf) (g : ℕ × GrfFile) (x : Str × List Byte) :
    Prop :=
  g.2.name = x.1 ∧ ∃ grf, grfs[g.1]? = some grf ∧ readEntry z C grf g.2.entry = .ok x.2

/-- The catalog of the archives is what was packed. -/
lemma forall₂_catalog (packs : List (PackedGrf T z C)) :
    List.Forall₂ (IsPacked C z (packs.map PackedGrf.grf))
      (AssetIndex.catalog (packs.map PackedGrf.grf)) (contents packs) := by
  have hcontents : contents packs = packs.zipIdx.flatMap fun x => x.1.contents := by
    conv_lhs => rw [← List.zipIdx_map_fst 0 packs]
    rw [contents, List.flatMap_map]
  have hsame : List.Forall₂ (fun x y => x = y ∧ x ∈ packs.zipIdx) packs.zipIdx packs.zipIdx :=
    List.forall₂_same.mpr fun x hx => ⟨rfl, hx⟩
  rw [hcontents, AssetIndex.catalog, List.zipIdx_map, List.flatMap_map]
  refine List.rel_flatMap hsame ?_
  rintro ⟨packed, i⟩ - ⟨rfl, hmem⟩
  have hget : (packs.map PackedGrf.grf)[i]? = some packed.grf := by
    rw [List.getElem?_map, List.mem_zipIdx_iff_getElem?.mp hmem]
    rfl
  change List.Forall₂ _ (packed.grf.files.map fun file => (i, file)) packed.contents
  unfold PackedGrf.contents
  rw [List.forall₂_map_left_iff, List.forall₂_map_right_iff]
  exact packed.holds.imp fun file item h => ⟨h.1, packed.grf, hget, h.2⟩

/-- Related lists have related first elements. -/
lemma rel_find? {α β : Type} {R : α → β → Prop} {p : α → Bool} {q : β → Bool}
    (hpq : ∀ a b, R a b → p a = q b) {l : List α} {l' : List β} (h : List.Forall₂ R l l') :
    Option.Rel R (l.find? p) (l'.find? q) := by
  induction h with
  | nil => exact .none
  | @cons a b l l' hab _ ih =>
    rw [List.find?_cons, List.find?_cons, hpq a b hab]
    cases q b with
    | true => exact .some hab
    | false => exact ih

lemma exists_related {α β : Type} {R : α → β → Prop} {l : List α} {l' : List β}
    (h : List.Forall₂ R l l') {a : α} (ha : a ∈ l) : ∃ b ∈ l', R a b := by
  induction h with
  | nil => exact absurd ha (by simp)
  | @cons a' b l l' hab _ ih =>
    rcases List.mem_cons.mp ha with rfl | ha
    · exact ⟨b, by simp, hab⟩
    · obtain ⟨b', hb', hab'⟩ := ih ha
      exact ⟨b', List.mem_cons_of_mem _ hb', hab'⟩

/-- The first file of the index that a path names is the first packed one. -/
lemma scan_packed (packs : List (PackedGrf T z C)) (path : Str) :
    Option.Rel (IsPacked C z (packs.map PackedGrf.grf))
      (AssetIndex.scan T (packs.map PackedGrf.grf) path) (firstPacked packs path) :=
  rel_find? (fun g x h => by rw [h.1]) (forall₂_catalog packs)

end

/-! ## What the server has for a path -/

section

variable {p : Platform} {cfg : Config} {packs : List (PackedGrf p.text p.flate p.crypto)}

/-- The server of some packed archives. -/
def packedClient (cfg : Config) (packs : List (PackedGrf p.text p.flate p.crypto)) : Client :=
  Client.new p cfg (packs.map PackedGrf.grf)

/-- There are no more archives and files than the index can count. -/
structure Counted (packs : List (PackedGrf p.text p.flate p.crypto)) : Prop where
  archives : packs.length ≤ 65536
  files : (contents packs).length < 2 ^ 32

lemma Counted.catalog (h : Counted packs) :
    (AssetIndex.catalog (packs.map PackedGrf.grf)).length < 2 ^ 32 := by
  rw [(forall₂_catalog packs).length_eq]
  exact h.files

/-- What is read for a file of the catalog. -/
lemma readFound_packed (h : Counted packs) {g : ℕ × GrfFile} {x : Str × List Byte}
    (hmem : g ∈ AssetIndex.catalog (packs.map PackedGrf.grf))
    (hpacked : IsPacked p.crypto p.flate (packs.map PackedGrf.grf) g x) :
    (packedClient cfg packs).readFound (AssetIndex.indexed g) = .ok x.2 := by
  obtain ⟨-, grf, hget, hread⟩ := hpacked
  have harchives : (packs.map PackedGrf.grf).length ≤ 65536 := by
    rw [List.length_map]
    exact h.archives
  unfold Client.readFound
  rw [AssetIndex.toNat_grf_indexed harchives hmem]
  change lift (Exec.index (packs.map PackedGrf.grf) g.1) >>= _ = _
  rw [index_eq_of_getElem? hget]
  exact hread

/-- **The archives have the first packed file that a path names.** -/
lemma archiveData_packed (h : Counted packs) {path name : Str} {data : List Byte}
    (hfirst : firstPacked packs path = some (name, data)) :
    (packedClient cfg packs).archiveData path = .ok (some data) := by
  have hscan := scan_packed packs path
  rw [hfirst] at hscan
  obtain ⟨g, hg, hpacked⟩ : ∃ g, AssetIndex.scan p.text (packs.map PackedGrf.grf) path = some g ∧
      IsPacked p.crypto p.flate (packs.map PackedGrf.grf) g (name, data) := by
    generalize AssetIndex.scan p.text (packs.map PackedGrf.grf) path = found at hscan
    cases hscan with
    | some hpacked => exact ⟨_, rfl, hpacked⟩
  have hhit : (packedClient cfg packs).archiveHit path = .ok (some (AssetIndex.indexed g)) := by
    unfold Client.archiveHit
    have hlookup := AssetIndex.lookup_eq_scan p.text h.catalog path
    rw [hg, ← Client.index_new p cfg] at hlookup
    change (packedClient cfg packs).index.lookup p.text path >>= _ = _
    rw [show (packedClient cfg packs).index.lookup p.text path = _ from hlookup, ok_bind]
    rfl
  unfold Client.archiveData
  rw [hhit]
  simp only
  rw [readFound_packed h (List.mem_of_find?_eq_some hg) hpacked]

/-- Every packed file that a path names has the same name. -/
def OneName (packs : List (PackedGrf p.text p.flate p.crypto)) (path name : Str) : Prop :=
  ∀ x ∈ contents packs, AssetIndex.Names p.text path x.1 → x.1 = name

/-- No other source has a path of the same key. -/
structure Unshadowed (c : Client) (frozen : PathBuf → Prop) (T : FileSystem) (relative : Str) :
    Prop where
  loose : ∀ q path, publicAssetPath q = true → c.cacheKey q = c.cacheKey relative →
    safeJoin c.cfg.root q = some path → frozen path ∧ T.fileData path = none
  client : ∀ q, publicAssetPath q = true → c.cacheKey q = c.cacheKey relative →
    c.clientDirectory q = none
  dataOverride : ∀ q dir path, publicAssetPath q = true → c.cacheKey q = c.cacheKey relative →
    c.cfg.dataOverridePath = some dir → safeJoin dir (stripLeadingData q) = some path →
      frozen path ∧ T.fileData path = none

/-- Paths of one key name the same files. -/
lemma normForward_of_cacheKey {c : Client} {q path : Str} (h : c.cacheKey q = c.cacheKey path) :
    normForward c.platform.text q = normForward c.platform.text path :=
  congrArg toForward h

lemma firstPacked_congr {q path : Str} (h : normForward p.text q = normForward p.text path) :
    firstPacked packs q = firstPacked packs path := by
  simp only [firstPacked, AssetIndex.Names, h]

/-- A warm-up reads, under the key of a path, what the path is answered with. -/
lemma warmed_eq (h : Counted packs) {relative name : Str} {data data' : List Byte}
    (hfirst : firstPacked packs relative = some (name, data)) (hone : OneName packs relative name)
    (hwarmed : (packedClient cfg packs).Warmed ((packedClient cfg packs).cacheKey relative) data') :
    data' = data := by
  obtain ⟨i, hi, file, hfile, -, hread, hkey⟩ := hwarmed
  let catalog := AssetIndex.catalog (packs.map PackedGrf.grf)
  have hindex : (packedClient cfg packs).index = AssetIndex.added p.text catalog :=
    (Client.index_new p cfg _).trans (AssetIndex.build_eq p.text _)
  rw [hindex, AssetIndex.reachable_eq] at hi
  obtain ⟨⟨item, n⟩, hwinner, rfl⟩ := List.mem_map.mp hi
  obtain ⟨pre, post, hcatalog, hlen, hwins⟩ := AssetIndex.mem_winners.mp hwinner
  simp only at hcatalog hlen hwins
  -- The file that is warmed is the one that won a key.
  have hn : n < 2 ^ 32 := by
    have hfew := h.catalog
    rw [show AssetIndex.catalog (packs.map PackedGrf.grf) = _ from hcatalog, List.length_append,
      List.length_cons] at hfew
    omega
  have hget : (catalog.map AssetIndex.indexed)[n]? = some (AssetIndex.indexed item) := by
    rw [hcatalog, ← hlen]
    simp
  rw [hindex, AssetIndex.files_added, BitVec.toNat_ofNat, Nat.mod_eq_of_lt hn,
    index_eq_of_getElem? hget] at hfile
  obtain rfl := Except.ok.inj hfile
  have hnames : AssetIndex.Names p.text relative item.2.name := by
    refine .inr ?_
    have hforward := congrArg toForward hkey
    rw [show toForward ((packedClient cfg packs).cacheKey relative) = normForward p.text relative
      from rfl] at hforward
    rw [← hforward]
    exact toForward_toForward _
  -- The path names only files of that name, and none of them is in front.
  have hsame : ∀ g ∈ catalog, AssetIndex.Names p.text relative g.2.name → g.2.name = name := by
    intro g hg hgnames
    obtain ⟨x, hx, hpacked⟩ := exists_related (forall₂_catalog packs) hg
    rw [hpacked.1] at hgnames ⊢
    exact hone x hx hgnames
  have hscan : AssetIndex.scan p.text (packs.map PackedGrf.grf) relative = some item := by
    refine List.find?_eq_some_iff_append.mpr ⟨decide_eq_true hnames, pre, post, hcatalog, ?_⟩
    intro g hg
    rw [Bool.not_eq_true', decide_eq_false_iff_not]
    intro hgnames
    have hmem : ∀ x ∈ pre ++ [item], x ∈ catalog := by
      intro x hx
      rw [hcatalog]
      rcases List.mem_append.mp hx with hx | hx
      · exact List.mem_append_left _ hx
      · rw [List.mem_singleton.mp hx]
        simp
    exact hwins.name_ne g hg ((hsame g (hmem g (by simp [hg])) hgnames).trans
      (hsame item (hmem item (by simp)) hnames).symm)
  have hrel := scan_packed packs relative
  rw [hscan, hfirst] at hrel
  cases hrel with
  | some hpacked =>
    exact Except.ok.inj
      (hread.symm.trans (readFound_packed h (List.mem_of_find?_eq_some hscan) hpacked))

/-- **Nothing else has a source under the key of a packed file.** -/
lemma Unshadowed.data_eq {frozen : PathBuf → Prop} {links : PathBuf → PathBuf → Prop}
    {T : FileSystem} {relative name : Str} {data data' : List Byte}
    (hun : Unshadowed (packedClient cfg packs) frozen T relative)
    (h : Counted packs) (hfirst : firstPacked packs relative = some (name, data))
    (hone : OneName packs relative name)
    (hsourced : (packedClient cfg packs).Sourced frozen links T
      ((packedClient cfg packs).cacheKey relative) data') : data' = data := by
  cases hsourced with
  | warmUp hwarmed => exact warmed_eq h hfirst hone hwarmed
  | @request q hpublic hkey hfinds =>
    cases hfinds with
    | loose hjoin hdata =>
      obtain ⟨hfrozen, hnone⟩ := hun.loose q _ hpublic hkey hjoin
      exact absurd ((hdata hfrozen).symm.trans hnone) (by simp)
    | client hdir =>
      exact absurd (hdir.symm.trans (hun.client q hpublic hkey)) (by simp)
    | override hdir hjoin hdata =>
      obtain ⟨hfrozen, hnone⟩ := hun.dataOverride q _ _ hpublic hkey hdir hjoin
      exact absurd ((hdata hfrozen).symm.trans hnone) (by simp)
    | archive harchive =>
      have hq : firstPacked packs q = some (name, data) :=
        (firstPacked_congr (normForward_of_cacheKey hkey)).trans hfirst
      exact Option.some.inj (Except.ok.inj (harchive.symm.trans (archiveData_packed h hq)))

/-! ## Runs -/

/-- **A request for a packed file is answered with what was packed.** -/
lemma answer_packed {frozen : PathBuf → Prop} {T disk : FileSystem} (h : Counted packs)
    (hguarded : Guarded (packedClient cfg packs) frozen)
    (hdisk : ∀ path, frozen path → disk.node path = T.node path)
    {pool : Pool Action Action.Answer Server Job (Option Response)}
    (hreach : ((packedClient cfg packs).machine frozen).Reachable (Client.start cfg disk) pool)
    {r : Request} {raw name : Str} {data : List Byte} (hget : r.endpoint = .path .get raw)
    (hgame : r.gameData cfg = true)
    (hasset : (packedClient cfg packs).OnlyAsset ((packedClient cfg packs).decoded raw))
    (hun : Unshadowed (packedClient cfg packs) frozen T ((packedClient cfg packs).decoded raw))
    (hfirst : firstPacked packs ((packedClient cfg packs).decoded raw) = some (name, data))
    (hone : OneName packs ((packedClient cfg packs).decoded raw) name)
    {a : Option Response} (hdone : (Job.request r, .ret a) ∈ pool.threads) :
    a = some ((packedClient cfg packs).assetAnswer r.headers
      ((packedClient cfg packs).decoded raw) data) := by
  -- No file is read through a link, so it does not matter where links lead.
  let anywhere : PathBuf → PathBuf → Prop := fun _ _ => True
  have hlinks : disk.LinksTo anywhere := fun _ _ _ => trivial
  have hlinked : ((packedClient cfg packs).linked frozen anywhere).Reachable
      (Client.start cfg disk) pool := hreach.keeping fun _ _ _ _ => trivial
  have hjob : GetAnswersFrom (packedClient cfg packs) frozen anywhere T (.request r) a pool.state :=
    hlinked.post (wholeContract hguarded anywhere T) (stable_getAnswersFrom hguarded)
      (fun job _ _ => answers_run hguarded job)
      ⟨sane_start disk hdisk, traced_start hdisk hlinks⟩ hdone
  obtain ⟨resp, rfl, hfrom⟩ := hjob r raw rfl hget
  obtain ⟨e, -, -, hsourced, rfl⟩ :=
    hfrom.found hasset hgame ⟨data, archiveData_packed h hfirst⟩
  rw [hun.data_eq h hfirst hone hsourced]

end

end RemoteClient

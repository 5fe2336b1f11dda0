/-
# The merged file index

One entry of an archive answers to several spellings: its name and its mojibake name, each
with either slash, in any case.  `AssetIndex.build` claims up to four keys for every file of
every archive, first come first served, and a look-up probes two of them.

The map is a plain "first one wins" map on forward keys (`keys_build`): every backward key
holds what its forward twin holds, because a file that claims one claims the other.  So a
look-up is a scan of the archives in order (`lookup_build`).
-/
import Std.Data.HashMap.Lemmas
import RemoteClient.Grf.Archive

namespace RemoteClient

open Exec Grf

/-! ## Normal forms -/

/-- All forward slashes. -/
def toForward (s : Str) : Str := s.map fun c => if c = '\\' then '/' else c

/-- All backslashes. -/
def toBackward (s : Str) : Str := s.map fun c => if c = '/' then '\\' else c

/-- Lowercase, all forward slashes. -/
def normForward (T : TextLib) (path : Str) : Str := toForward (Encoding.jsLowercase T path)

/-- Lowercase, all backslashes. -/
def normBackward (T : TextLib) (path : Str) : Str := toBackward (Encoding.jsLowercase T path)

@[simp] lemma toForward_toForward (s : Str) : toForward (toForward s) = toForward s := by
  unfold toForward
  rw [List.map_map]
  refine List.map_congr_left fun c _ => ?_
  by_cases h : c = '\\' <;> simp [h]

@[simp] lemma toForward_toBackward (s : Str) : toForward (toBackward s) = toForward s := by
  unfold toForward toBackward
  rw [List.map_map]
  refine List.map_congr_left fun c _ => ?_
  by_cases h : c = '/' <;> simp [h]

@[simp] lemma toBackward_toForward (s : Str) : toBackward (toForward s) = toBackward s := by
  unfold toForward toBackward
  rw [List.map_map]
  refine List.map_congr_left fun c _ => ?_
  by_cases h : c = '\\' <;> simp [h]

/-- Two strings agree up to slashes whichever slash both are written with. -/
lemma toBackward_eq_iff {a b : Str} : toBackward a = toBackward b ↔ toForward a = toForward b := by
  constructor
  · intro h
    rw [← toForward_toBackward a, h, toForward_toBackward]
  · intro h
    rw [← toBackward_toForward a, h, toBackward_toForward]

/-- Strings that meet with different slashes agree up to slashes. -/
lemma toForward_eq_of_eq_toBackward {a b : Str} (h : toForward a = toBackward b) :
    toForward a = toForward b := by
  rw [← toForward_toForward a, h, toForward_toBackward]

/-! ## The index -/

structure IndexedFile where
  /-- The archive this came from, as an index into the load order. -/
  grf : BitVec 16
  name : Str
  entry : GrfEntry
deriving DecidableEq, Repr

structure AssetIndex where
  files : List IndexedFile
  keys : Std.HashMap Str (BitVec 32)
  /-- The files that won at least one key. -/
  reachable : List (BitVec 32)
  mojibakeKeyCount : ℕ

namespace AssetIndex

variable (T : TextLib)

def empty : AssetIndex := ⟨[], ∅, [], 0⟩

/-- Claim a key for a file, unless an earlier file has it. -/
def claim (slot : BitVec 32) (key : Str) (keys : Std.HashMap Str (BitVec 32)) :
    Bool × Std.HashMap Str (BitVec 32) :=
  if keys.contains key then (false, keys) else (true, keys.insert key slot)

/-- Add one file of archive `grfIdx`. -/
def addFile (index : AssetIndex) (grfIdx : ℕ) (file : GrfFile) : AssetIndex :=
  let slot := BitVec.ofNat 32 index.files.length
  let (wonForward, keys) := claim slot (normForward T file.name) index.keys
  let (wonBackward, keys) := claim slot (normBackward T file.name) keys
  let mojibake := Encoding.toMojibake T file.name
  let (wonMojibake, count, keys) :=
    if mojibake ≠ file.name then
      let (wonForward, keys) := claim slot (normForward T mojibake) keys
      let (wonBackward, keys) := claim slot (normBackward T mojibake) keys
      (wonForward || wonBackward, if wonForward then 1 else 0, keys)
    else (false, 0, keys)
  { files := index.files ++ [⟨BitVec.ofNat 16 grfIdx, file.name, file.entry⟩]
    keys := keys
    reachable :=
      if wonForward || wonBackward || wonMojibake then index.reachable ++ [slot]
      else index.reachable
    mojibakeKeyCount := index.mojibakeKeyCount + count }

/-- Build the merged index; the archives come in priority order. -/
def build (grfs : List Grf) : AssetIndex :=
  grfs.zipIdx.foldl
    (fun index (grf, grfIdx) => grf.files.foldl (fun index file => addFile T index grfIdx file) index)
    empty

/-- The file a key names. -/
def fileAt (index : AssetIndex) (i : BitVec 32) : Exec Empty (Option IndexedFile) := do
  let file ← Exec.index index.files i.toNat
  return some file

/-- Look a request path up under both slash spellings. -/
def lookup (index : AssetIndex) (path : Str) : Exec Empty (Option IndexedFile) :=
  match index.keys[normForward T path]? with
  | some i => fileAt index i
  | none =>
    match index.keys[normBackward T path]? with
    | some i => fileAt index i
    | none => .ok none

/-! ## What the index is for -/

/-- Every file of every archive in order, with the number of its archive. -/
def catalog (grfs : List Grf) : List (ℕ × GrfFile) :=
  grfs.zipIdx.flatMap fun (grf, grfIdx) => grf.files.map fun file => (grfIdx, file)

/-- A path names a file: up to case and slashes it is the file's name or its mojibake. -/
def Names (path name : Str) : Prop :=
  normForward T path = normForward T name ∨
    normForward T path = normForward T (Encoding.toMojibake T name)

instance (path name : Str) : Decidable (Names T path name) := by
  unfold Names; infer_instance

/-- The record the index keeps of a file. -/
def indexed (item : ℕ × GrfFile) : IndexedFile :=
  ⟨BitVec.ofNat 16 item.1, item.2.name, item.2.entry⟩

/-- Scan the archives in order for the first file a path names. -/
def scan (grfs : List Grf) (path : Str) : Option (ℕ × GrfFile) :=
  (catalog grfs).find? fun item => decide (Names T path item.2.name)

/-! ## Every key holds the first file that claims it -/

/-- The keys a file claims. -/
def claimed (name : Str) : List Str :=
  [normForward T name, normBackward T name, normForward T (Encoding.toMojibake T name),
    normBackward T (Encoding.toMojibake T name)]

lemma getElem?_claim (slot : BitVec 32) (key k : Str) (keys : Std.HashMap Str (BitVec 32)) :
    (claim slot key keys).2[k]? = keys[k]?.or (if k = key then some slot else none) := by
  unfold claim
  by_cases hk : k = key
  · subst hk
    rw [if_pos rfl, Std.HashMap.contains_eq_isSome_getElem?]
    cases hget : keys[k]? with
    | none => simp
    | some i => simp [hget]
  · rw [if_neg hk, Option.or_none]
    split
    · rfl
    · rw [Std.HashMap.getElem?_insert, if_neg (by simpa using Ne.symm hk)]

/-- One file claims its keys where nobody has. -/
lemma keys_addFile (index : AssetIndex) (grfIdx : ℕ) (file : GrfFile) (k : Str) :
    (addFile T index grfIdx file).keys[k]? = index.keys[k]?.or
      (if k ∈ claimed T file.name then some (BitVec.ofNat 32 index.files.length) else none) := by
  unfold addFile
  simp only
  by_cases hmojibake : Encoding.toMojibake T file.name ≠ file.name
  · rw [if_pos hmojibake]
    simp only [getElem?_claim, Option.or_assoc]
    congr 1
    simp only [claimed, List.mem_cons, List.not_mem_nil, or_false]
    split_ifs <;> simp_all
  · rw [if_neg hmojibake]
    simp only [getElem?_claim, Option.or_assoc]
    congr 1
    rw [not_not] at hmojibake
    simp only [claimed, hmojibake, List.mem_cons, List.not_mem_nil, or_false]
    split_ifs <;> simp_all

lemma files_addFile (index : AssetIndex) (grfIdx : ℕ) (file : GrfFile) :
    (addFile T index grfIdx file).files = index.files ++ [indexed (grfIdx, file)] := rfl

/-- The loops of `build` go through the catalog. -/
lemma build_eq (grfs : List Grf) :
    build T grfs = (catalog grfs).foldl (fun index item => addFile T index item.1 item.2) empty := by
  rw [catalog, List.foldl_flatMap, build]
  congr 1
  funext index item
  rw [List.foldl_map]

lemma files_foldl (l : List (ℕ × GrfFile)) (index : AssetIndex) :
    (l.foldl (fun index item => addFile T index item.1 item.2) index).files =
      index.files ++ l.map indexed := by
  induction l generalizing index with
  | nil => simp
  | cons item l ih =>
    rw [List.foldl_cons, ih, files_addFile, List.append_assoc]
    rfl

/-- The run of the loop: a key that was free goes to the first file that claims it. -/
lemma keys_foldl (l : List (ℕ × GrfFile)) (index : AssetIndex) (k : Str) :
    (l.foldl (fun index item => addFile T index item.1 item.2) index).keys[k]? =
      index.keys[k]?.or ((l.findIdx? fun item => decide (k ∈ claimed T item.2.name)).map
        fun j => BitVec.ofNat 32 (index.files.length + j)) := by
  induction l generalizing index with
  | nil => simp
  | cons item l ih =>
    rw [List.foldl_cons, ih, keys_addFile, files_addFile, Option.or_assoc, List.findIdx?_cons]
    congr 1
    by_cases hk : k ∈ claimed T item.2.name
    · rw [if_pos hk, if_pos (decide_eq_true hk)]
      simp
    · rw [if_neg hk, if_neg (by simpa using hk), Option.none_or, Option.map_map]
      congr 1
      funext j
      simp only [Function.comp, List.length_append, List.length_singleton]
      congr 1
      omega

lemma mem_claimed_forward {path name : Str} :
    normForward T path ∈ claimed T name ↔ Names T path name := by
  simp only [claimed, List.mem_cons, List.not_mem_nil, or_false, Names]
  constructor
  · rintro (h | h | h | h)
    · exact .inl h
    · exact .inl (toForward_eq_of_eq_toBackward h)
    · exact .inr h
    · exact .inr (toForward_eq_of_eq_toBackward h)
  · rintro (h | h)
    · exact .inl h
    · exact .inr (.inr (.inl h))

/-- A file that is asked for with backslashes is asked for with forward ones. -/
lemma mem_claimed_backward {path name : Str} :
    normBackward T path ∈ claimed T name ↔ Names T path name := by
  simp only [claimed, List.mem_cons, List.not_mem_nil, or_false, Names]
  constructor
  · rintro (h | h | h | h)
    · exact .inl (toForward_eq_of_eq_toBackward h.symm).symm
    · exact .inl (toBackward_eq_iff.mp h)
    · exact .inr (toForward_eq_of_eq_toBackward h.symm).symm
    · exact .inr (toBackward_eq_iff.mp h)
  · rintro (h | h)
    · exact .inr (.inl (toBackward_eq_iff.mpr h))
    · exact .inr (.inr (.inr (toBackward_eq_iff.mpr h)))

/-- What both keys of a path hold: the place of the first file the path names. -/
lemma keys_build (grfs : List Grf) (path : Str) :
    (build T grfs).keys[normForward T path]? =
        ((catalog grfs).findIdx? fun item => decide (Names T path item.2.name)).map
          (BitVec.ofNat 32) ∧
      (build T grfs).keys[normBackward T path]? =
        ((catalog grfs).findIdx? fun item => decide (Names T path item.2.name)).map
          (BitVec.ofNat 32) := by
  have hstart : ∀ k : Str, empty.keys[k]? = none := fun k => Std.HashMap.getElem?_empty
  constructor
  · rw [build_eq, keys_foldl, hstart]
    simp [mem_claimed_forward, empty]
  · rw [build_eq, keys_foldl, hstart]
    simp [mem_claimed_backward, empty]

lemma length_catalog (grfs : List Grf) :
    (catalog grfs).length = (grfs.map fun grf => grf.files.length).sum := by
  have hfst : (grfs.zipIdx.map fun item => item.1.files.length) =
      grfs.map fun grf => grf.files.length := by
    conv_rhs => rw [← List.zipIdx_map_fst 0 grfs, List.map_map]
    rfl
  rw [catalog, List.length_flatMap]
  simp only [List.length_map]
  rw [hfst]

/-! ## Looking up is scanning -/

/-- A look-up returns the file at the place its key holds, a place of 32 bits. -/
lemma lookup_eq (grfs : List Grf) (path : Str) :
    lookup T (build T grfs) path =
      .ok ((((catalog grfs).findIdx? fun item => decide (Names T path item.2.name)).bind
        fun j => (catalog grfs)[j % 2 ^ 32]?).map indexed) := by
  obtain ⟨hforward, hbackward⟩ := keys_build T grfs path
  rw [lookup, hforward]
  cases hfind : (catalog grfs).findIdx? fun item => decide (Names T path item.2.name) with
  | none =>
    rw [hfind] at hbackward
    simp [hbackward]
  | some j =>
    have hj := (List.findIdx?_eq_some_iff_getElem.mp hfind).1
    have hslot : j % 2 ^ 32 < (catalog grfs).length := lt_of_le_of_lt (Nat.mod_le _ _) hj
    have hget : (build T grfs).files[j % 2 ^ 32]? = some (indexed (catalog grfs)[j % 2 ^ 32]) := by
      rw [build_eq, files_foldl, empty, List.nil_append, List.getElem?_map,
        List.getElem?_eq_getElem hslot]
      rfl
    simp only [Option.map_some, Option.bind_some, List.getElem?_eq_getElem hslot]
    rw [fileAt, BitVec.toNat_ofNat, index_eq_of_getElem? hget]
    rfl

/-- A look-up is a scan of the archives in order. -/
lemma lookup_eq_scan {grfs : List Grf} (hfiles : (catalog grfs).length < 2 ^ 32) (path : Str) :
    lookup T (build T grfs) path = .ok ((scan T grfs path).map indexed) := by
  rw [lookup_eq, scan, List.find?_eq_bind_findIdx?_getElem?]
  cases hfind : (catalog grfs).findIdx? fun item => decide (Names T path item.2.name) with
  | none => rfl
  | some j =>
    have hj := (List.findIdx?_eq_some_iff_getElem.mp hfind).1
    rw [Option.bind_some, Option.bind_some, Nat.mod_eq_of_lt (by omega)]

/-- The catalog goes through the archives in order. -/
lemma catalog_pairwise (grfs : List Grf) : (catalog grfs).Pairwise fun a b => a.1 ≤ b.1 := by
  have hgen : ∀ (grfs : List Grf) (n : ℕ),
      ((grfs.zipIdx n).flatMap fun (grf, grfIdx) => grf.files.map fun file => (grfIdx, file)).Pairwise
        (fun a b => a.1 ≤ b.1) ∧
      ∀ item ∈ (grfs.zipIdx n).flatMap fun (grf, grfIdx) => grf.files.map fun file => (grfIdx, file),
        n ≤ item.1 := by
    intro grfs
    induction grfs with
    | nil => exact fun n => ⟨List.Pairwise.nil, by simp⟩
    | cons grf grfs ih =>
      intro n
      obtain ⟨hpairs, hge⟩ := ih (n + 1)
      rw [List.zipIdx_cons, List.flatMap_cons]
      refine ⟨List.pairwise_append.mpr ⟨?_, hpairs, ?_⟩, ?_⟩
      · rw [List.pairwise_map]
        exact List.pairwise_of_forall fun _ _ => le_rfl
      · intro a ha b hb
        obtain ⟨file, -, rfl⟩ := List.mem_map.mp ha
        exact le_trans (Nat.le_succ n) (hge b hb)
      · intro item hitem
        rcases List.mem_append.mp hitem with h | h
        · obtain ⟨file, -, rfl⟩ := List.mem_map.mp h
          exact le_rfl
        · exact le_trans (Nat.le_succ n) (hge item h)
  exact (hgen grfs 0).1

lemma fst_lt_of_mem_catalog {grfs : List Grf} {item : ℕ × GrfFile} (h : item ∈ catalog grfs) :
    item.1 < grfs.length := by
  obtain ⟨⟨grf, grfIdx⟩, hgrf, hmem⟩ := List.mem_flatMap.mp h
  obtain ⟨file, -, rfl⟩ := List.mem_map.mp hmem
  obtain ⟨-, hlt, -⟩ := List.mem_zipIdx hgrf
  simpa using hlt

/-- The index keeps the number of a file's archive. -/
lemma toNat_grf_indexed {grfs : List Grf} (hgrfs : grfs.length ≤ 65536) {item : ℕ × GrfFile}
    (h : item ∈ catalog grfs) : (indexed item).grf.toNat = item.1 := by
  have hlt := fst_lt_of_mem_catalog h
  change (BitVec.ofNat 16 item.1).toNat = item.1
  rw [BitVec.toNat_ofNat]
  exact Nat.mod_eq_of_lt (by omega)

/-- **The first file wins.**  A look-up returns the first file, in archive order and then in
table order, that the path names up to case and slashes under its own or its mojibake name,
and nothing when there is none.  The backslash key of a path answers what its forward key
answers, the record returned carries the number of its archive, and a file of a later archive
is never returned for a path that names one of an earlier archive. -/
theorem lookup_build {grfs : List Grf} (hgrfs : grfs.length ≤ 65536)
    (hfiles : (grfs.map fun grf => grf.files.length).sum < 2 ^ 32) (path : Str) :
    lookup T (build T grfs) path = .ok ((scan T grfs path).map indexed) ∧
    (build T grfs).keys[normBackward T path]? = (build T grfs).keys[normForward T path]? ∧
    (∀ first, scan T grfs path = some first → (indexed first).grf.toNat = first.1) ∧
    ∀ item ∈ catalog grfs, Names T path item.2.name →
      ∃ file, lookup T (build T grfs) path = .ok (some file) ∧ file.grf.toNat ≤ item.1 := by
  rw [← length_catalog] at hfiles
  obtain ⟨hforward, hbackward⟩ := keys_build T grfs path
  refine ⟨lookup_eq_scan T hfiles path, by rw [hforward, hbackward],
    fun first hfirst => toNat_grf_indexed hgrfs (List.mem_of_find?_eq_some hfirst),
    fun item hitem hnames => ?_⟩
  obtain ⟨first, hfirst⟩ : ∃ first, scan T grfs path = some first := by
    rw [← Option.isSome_iff_exists, scan, List.find?_isSome]
    exact ⟨item, hitem, decide_eq_true hnames⟩
  refine ⟨indexed first, ?_, ?_⟩
  · rw [lookup_eq_scan T hfiles, hfirst]
    rfl
  · obtain ⟨-, pre, post, hsplit, hpre⟩ := List.find?_eq_some_iff_append.mp hfirst
    -- Archive numbers only go up in the catalogue, so nothing behind the first hit is earlier.
    have hle : first.1 ≤ item.1 := by
      have hpairs := catalog_pairwise grfs
      rw [hsplit] at hpairs hitem
      rcases List.mem_append.mp hitem with h | h
      · have := hpre item h
        rw [decide_eq_true hnames] at this
        exact absurd this (by simp)
      · rcases List.mem_cons.mp h with rfl | h
        · exact le_rfl
        · exact (List.pairwise_cons.mp (List.pairwise_append.mp hpairs).2.1).1 item h
    rw [toNat_grf_indexed hgrfs (List.mem_of_find?_eq_some hfirst)]
    exact hle

/-- An archive of which only the names of its files matter. -/
def fakeGrf (names : List Str) : Grf :=
  { fileName := "fake.grf"
    version := 0x200
    files := names.map fun name =>
      ⟨name, ⟨0, 1, 1, 1, 1, Vector.replicate 16 0, Vector.replicate 16 0⟩⟩
    stats := ⟨names.length, 0, 0, [], 0, 0, .cp949, 0, 0⟩
    handle := []
    size := 0
    archiveKeys := [] }

/-- An overlay in front of the archive it overrides. -/
theorem lookup_build_overlay :
    lookup .ascii (build .ascii [fakeGrf [['a', '\\', 'b']], fakeGrf [['a', '\\', 'b']]])
      ['A', '/', 'b'] = .ok (some (indexed (0, ⟨['a', '\\', 'b'],
        ⟨0, 1, 1, 1, 1, Vector.replicate 16 0, Vector.replicate 16 0⟩⟩))) :=
  (lookup_build .ascii (by decide) (by decide) ['A', '/', 'b']).1

end AssetIndex
end RemoteClient

/-
# Request paths

Every path in the server comes from a request.  `publicAssetPath` says which ones may be
asked for at all, and `safeJoin` puts one below a directory.  The two split a path in their
own ways, and meet in `safeJoin_public`: what a public path names below a directory is no
hidden file, no container and nothing in its `logs` or `resources`.

Paths are Unix paths: a part of one is any name without a slash.
-/
import RemoteClient.Index
import RemoteClient.Lib.Text

namespace RemoteClient

/-- A path of the file system, as its components from `/` on. -/
abbrev PathBuf : Type := List Str

/-! ## Text -/

/-- `to_ascii_lowercase`. -/
def asciiLower (s : Str) : Str := s.map Char.toLower

/-- `eq_ignore_ascii_case`. -/
def eqIgnoreAsciiCase (a b : Str) : Bool := asciiLower a = asciiLower b

/-- `split_once`: what is before and after the first `sep`. -/
def splitOnce (sep : Char) (s : Str) : Option (Str × Str) :=
  match s.span (· ≠ sep) with
  | (_, []) => none
  | (key, _ :: value) => some (key, value)

lemma splitOnce_eq_some_iff {sep : Char} {s key value : Str} :
    splitOnce sep s = some (key, value) ↔ s = key ++ sep :: value ∧ sep ∉ key := by
  constructor
  · intro h
    unfold splitOnce at h
    split at h
    · exact absurd h (by simp)
    · next key' ch value' hspan =>
      obtain ⟨rfl, rfl⟩ := Prod.mk.inj (Option.some.inj h)
      rw [List.span_eq_takeWhile_dropWhile, Prod.mk.injEq] at hspan
      obtain ⟨hkey, hvalue⟩ := hspan
      have hch : ch = sep := by
        have hhead := List.head?_dropWhile_not (fun x => decide (x ≠ sep)) s
        rw [hvalue] at hhead
        simpa using hhead
      subst hch
      refine ⟨by rw [← hkey, ← hvalue, List.takeWhile_append_dropWhile], fun hmem => ?_⟩
      rw [← hkey] at hmem
      simpa using List.all_eq_true.mp List.all_takeWhile _ hmem
  · rintro ⟨rfl, hkey⟩
    have hall : ∀ c ∈ key, decide (c ≠ sep) = true := fun c hc =>
      decide_eq_true fun heq => hkey (heq ▸ hc)
    rw [splitOnce, List.span_eq_takeWhile_dropWhile, List.takeWhile_append_of_pos hall,
      List.dropWhile_append_of_pos hall, List.takeWhile_cons_of_neg (by simp),
      List.dropWhile_cons_of_neg (by simp), List.append_nil]

lemma splitOnce_eq_none {sep : Char} {s : Str} (h : sep ∉ s) : splitOnce sep s = none := by
  by_contra hsome
  obtain ⟨⟨key, value⟩, hsplit⟩ := Option.ne_none_iff_exists'.mp hsome
  exact h (by rw [(splitOnce_eq_some_iff.mp hsplit).1]; simp)

/-- The bytes of a string. -/
def utf8Bytes (s : Str) : List Byte := (String.ofList s).toUTF8.data.toList.map UInt8.toBitVec

/-! ## Which paths are public -/

/-- Private configuration and archive containers are never downloadable assets. -/
def publicAssetPath (path : Str) : Bool :=
  let normalized := asciiLower (toForward path)
  let parts := (normalized.splitOn '/').filter fun p => p ≠ []
  !(parts.any fun p => p.head? = some '.') &&
  !(parts.head? = some "logs".toList || parts.head? = some "resources".toList) &&
  !(parts.getLast?.any fun p =>
    p = "data.ini".toList || ".grf".toList.isSuffixOf p || ".gpf".toList.isSuffixOf p)

/-- Put the parts of a path below a directory one by one.  A part without slashes that is
neither `.` nor `..` is one normal component. -/
def joinParts (out : PathBuf) : List Str → Option PathBuf
  | [] => some out
  | part :: parts =>
    if part = [] ∨ part = ['.'] then joinParts out parts
    else if part = ['.', '.'] then none
    else joinParts (out ++ [part]) parts

/-- Join a request-supplied relative path onto a root, refusing anything that could escape
it. -/
def safeJoin (root : PathBuf) (rel : Str) : Option PathBuf :=
  if '\x00' ∈ rel then none else joinParts root ((toForward rel).splitOn '/')

/-! ## Names -/

/-- Lower-case extension without the dot, or the empty string. -/
def extensionOf (path : Str) : Str :=
  let tail := (((toForward path).splitOn '/').getLast?).getD path
  if '.' ∈ tail then asciiLower (((tail.splitOn '.').getLast?).getD []) else []

/-- The override directory is a client's `data/`, so the request's own `data/` prefix has to
come off first. -/
def stripLeadingData (path : Str) : Str :=
  let lower := asciiLower path
  if "data/".toList.isPrefixOf lower || "data\\".toList.isPrefixOf lower then path.drop 5 else path

/-- The text of a path. -/
def pathString (path : PathBuf) : Str := path.flatMap fun part => '/' :: part

/-- A path with `suffix` put behind its text. -/
def pushSuffix (path : PathBuf) (suffix : Str) : PathBuf :=
  match path.getLast? with
  | none => [suffix]
  | some last => path.dropLast ++ [last ++ suffix]

/-! ## Base64 -/

def base64Alphabet : Vector Char 64 := ⟨
  "ABCDEFGHIJKLMNOPQRSTUVWXYZabcdefghijklmnopqrstuvwxyz0123456789+/".toList.toArray, by decide⟩

/-- The four characters of up to three bytes. -/
def base64Chunk (chunk : List Byte) : Str :=
  let b0 := (chunk.headD 0).toNat
  let b1 := (chunk.getD 1 0).toNat
  let b2 := (chunk.getD 2 0).toNat
  let n := b0 * 2 ^ 16 + b1 * 2 ^ 8 + b2
  let letter (i : ℕ) : Char := base64Alphabet[i % 64]
  [letter (n / 2 ^ 18), letter (n / 2 ^ 12),
    if 1 < chunk.length then letter (n / 2 ^ 6) else '=',
    if 2 < chunk.length then letter n else '=']

/-- Standard base64 with padding. -/
def base64Encode : List Byte → Str
  | [] => []
  | b0 :: b1 :: b2 :: rest => base64Chunk [b0, b1, b2] ++ base64Encode rest
  | chunk => base64Chunk chunk

/-! ## Percent-encoding -/

/-- Turn a request target into the path the client meant: UTF-8, or else the bytes as they
are. -/
def decodeRequestPath (T : TextLib) (raw : Str) : Str :=
  let bytes := T.percentDecode (utf8Bytes raw)
  match T.fromUtf8 bytes with
  | some s => s
  | none => Encoding.latin1Decode bytes

/-! ## Two ways to split a path -/

/-- A path is split at the same places in lower case. -/
lemma splitOn_asciiLower (s : Str) :
    (asciiLower s).splitOn '/' = (s.splitOn '/').map asciiLower := by
  induction s with
  | nil => rfl
  | cons c s ih =>
    change (c.toLower :: asciiLower s).splitOn '/' = _
    rw [List.splitOn_cons_eq_if_modifyHead, List.splitOn_cons_eq_if_modifyHead]
    by_cases hc : c = '/'
    · subst hc
      rw [if_pos (by decide), if_pos (by decide), ih]
      rfl
    · have hlower : ¬c.toLower = '/' := fun h => hc ((Text.toLower_eq_iff (by decide)).mp h)
      rw [if_neg (by simpa using hlower), if_neg (by simpa using hc), ih]
      cases s.splitOn '/' with
      | nil => rfl
      | cons p ps => rfl

/-- What `safeJoin` adds to a root are the parts of the path that are names. -/
lemma joinParts_eq {out q : PathBuf} {parts : List Str} (h : joinParts out parts = some q) :
    q = out ++ parts.filter fun p => p ≠ [] ∧ p ≠ ['.'] := by
  induction parts generalizing out with
  | nil =>
    rw [List.filter_nil, List.append_nil]
    exact (Option.some.inj h).symm
  | cons part parts ih =>
    rw [joinParts] at h
    split at h
    · next hskip =>
      rw [List.filter_cons_of_neg (by simpa using not_and_or.mpr (hskip.imp not_not_intro not_not_intro))]
      exact ih h
    · next hname =>
      split at h
      · exact absurd h (by simp)
      · rw [List.filter_cons_of_pos (by simpa using not_or.mp hname), ih h, List.append_assoc]
        rfl

lemma safeJoin_prefix {root q : PathBuf} {rel : Str} (h : safeJoin root rel = some q) :
    root <+: q := by
  unfold safeJoin at h
  split at h
  · exact absurd h (by simp)
  · rw [joinParts_eq h]
    exact List.prefix_append _ _

/-! ## Public paths name public files -/

/-- A configuration file or an archive, in any case. -/
def IsContainer (part : Str) : Prop :=
  asciiLower part = "data.ini".toList ∨ ".grf".toList <:+ asciiLower part ∨
    ".gpf".toList <:+ asciiLower part

/-- A name that stays in its directory and is not hidden. -/
structure IsName (part : Str) : Prop where
  ne_nil : part ≠ []
  no_slash : '/' ∉ part
  no_backslash : '\\' ∉ part
  no_nul : '\x00' ∉ part
  visible : part.head? ≠ some '.'

/-- What may be named below any directory. -/
structure Clean (parts : List Str) : Prop where
  names : ∀ part ∈ parts, IsName part
  last : ∀ part, parts.getLast? = some part → ¬IsContainer part

/-- What may be named below the server root. -/
structure Public (parts : List Str) : Prop extends Clean parts where
  first : ∀ part, parts.head? = some part →
    asciiLower part ≠ "logs".toList ∧ asciiLower part ≠ "resources".toList

/-- The parts of a path between slashes and backslashes. -/
def pathParts (s : Str) : List Str := (toForward s).splitOn '/'

/-- The parts of a path that are names. -/
def nameParts (s : Str) : List Str := (pathParts s).filter fun p => p ≠ [] ∧ p ≠ ['.']

/-- The parts of a path hold no separators, and no other characters than the path. -/
lemma pathParts_spec {s part : Str} (h : part ∈ pathParts s) :
    '/' ∉ part ∧ '\\' ∉ part ∧ ('\x00' ∈ part → '\x00' ∈ s) := by
  obtain ⟨hslash, hsub⟩ := Text.splitOn_spec h
  refine ⟨hslash, fun hback => ?_, fun hnul => ?_⟩
  · obtain ⟨ch, -, hch⟩ := List.mem_map.mp (hsub hback)
    split at hch
    · exact absurd hch (by decide)
    · next hne => exact hne hch
  · obtain ⟨ch, hmem, hch⟩ := List.mem_map.mp (hsub hnul)
    split at hch
    · exact absurd hch (by decide)
    · exact hch ▸ hmem

lemma head?_asciiLower (part : Str) : (asciiLower part).head? = some '.' ↔ part.head? = some '.' := by
  cases part with
  | nil => simp [asciiLower]
  | cons ch part =>
    simp only [asciiLower, List.map_cons, List.head?_cons, Option.some.injEq]
    exact Text.toLower_eq_iff (by decide)

/-- What `publicAssetPath` says about a path, in the words of `safeJoin`. -/
lemma publicAssetPath_spec {path : Str} (h : publicAssetPath path = true) :
    (∀ part ∈ pathParts path, part.head? ≠ some '.') ∧
    (∀ part, (nameParts path).head? = some part →
      asciiLower part ≠ "logs".toList ∧ asciiLower part ≠ "resources".toList) ∧
    ∀ part, (nameParts path).getLast? = some part → ¬IsContainer part := by
  simp only [publicAssetPath, splitOn_asciiLower, Bool.and_eq_true] at h
  obtain ⟨⟨hdot, hfirst⟩, hlast⟩ := h
  change (!(((pathParts path).map asciiLower).filter fun p => p ≠ []).any _) = true at hdot
  have hvisible : ∀ part ∈ pathParts path, part.head? ≠ some '.' := by
    intro part hpart hhead
    rw [Bool.not_eq_true', List.any_eq_false] at hdot
    refine hdot (asciiLower part) (List.mem_filter.mpr ⟨List.mem_map_of_mem hpart, ?_⟩)
      (decide_eq_true ((head?_asciiLower part).mpr hhead))
    refine decide_eq_true fun hnil => ?_
    rw [List.map_eq_nil_iff.mp hnil] at hhead
    exact absurd hhead (by simp)
  -- No part of a public path starts with a dot, so both ways to drop parts drop the same.
  have hfilter : (((toForward path).splitOn '/').map asciiLower).filter (fun p => p ≠ []) =
      (nameParts path).map asciiLower := by
    rw [List.filter_map]
    congr 1
    refine List.filter_congr fun p hp => decide_eq_decide.mpr ?_
    refine ⟨fun hne => ⟨fun hnil => hne (by rw [hnil]; rfl), ?_⟩, fun hname hnil => ?_⟩
    · rintro rfl
      exact hvisible _ hp rfl
    · exact hname.1 (List.map_eq_nil_iff.mp hnil)
  rw [hfilter] at hfirst hlast
  refine ⟨hvisible, fun part hhead => ?_, fun part hpart => ?_⟩
  · rw [List.head?_map, hhead] at hfirst
    simpa using hfirst
  · rw [List.getLast?_map, hpart, Option.map_some, Option.any_some, Bool.not_eq_true'] at hlast
    simp only [Bool.or_eq_false_iff, decide_eq_false_iff_not] at hlast
    obtain ⟨⟨hini, hgrf⟩, hgpf⟩ := hlast
    rintro (h | h | h)
    · exact hini h
    · exact absurd ((List.isSuffixOf_iff_suffix.mpr h).symm.trans hgrf) (by decide)
    · exact absurd ((List.isSuffixOf_iff_suffix.mpr h).symm.trans hgpf) (by decide)

/-- What a path behind a public one names below a directory. -/
lemma safeJoin_clean {dir q : PathBuf} {path rel : Str} (hpublic : publicAssetPath path = true)
    (hrel : pathParts rel <:+ pathParts path) (h : safeJoin dir rel = some q) :
    q = dir ++ nameParts rel ∧ Clean (nameParts rel) := by
  unfold safeJoin at h
  split at h
  · exact absurd h (by simp)
  · next hnul =>
    obtain ⟨hvisible, -, hlast⟩ := publicAssetPath_spec hpublic
    refine ⟨joinParts_eq h, fun part hpart => ?_, fun part hpart => hlast part ?_⟩
    · obtain ⟨hmem, hname⟩ := List.mem_filter.mp hpart
      obtain ⟨hslash, hback, hsub⟩ := pathParts_spec hmem
      exact ⟨(of_decide_eq_true hname).1, hslash, hback, fun hch => hnul (hsub hch),
        hvisible part (hrel.subset hmem)⟩
    · obtain ⟨before, hbefore⟩ := hrel.filter fun p => p ≠ [] ∧ p ≠ ['.']
      have hparts : before ++ nameParts rel = nameParts path := hbefore
      rw [← hparts, List.getLast?_append, hpart, Option.some_or]

/-- **A public path names a public file** of the directory it is joined to. -/
theorem safeJoin_public {root q : PathBuf} {rel : Str} (hpublic : publicAssetPath rel = true)
    (h : safeJoin root rel = some q) : ∃ parts, q = root ++ parts ∧ Public parts := by
  obtain ⟨hq, hclean⟩ := safeJoin_clean hpublic (List.suffix_refl _) h
  exact ⟨nameParts rel, hq, hclean, (publicAssetPath_spec hpublic).2.1⟩

end RemoteClient

/-
# The list of files

`list_files` returns the names of the files that won a key when the index was built.  A file
that comes behind another one of its name is to be left out; but it is listed, under the name
that is not its own any more, when its mojibake key is still free.

`lists_iff` says which files are listed, and `listFiles_exact_iff` when the list is exact.
-/
import RemoteClient.Spellings
import RemoteClient.Etags

namespace RemoteClient

open Exec Grf

namespace AssetIndex

variable {T : TextLib}

/-! ## What is listed -/

/-- The index of some files, in order. -/
def added (T : TextLib) (l : List (ℕ × GrfFile)) : AssetIndex :=
  l.foldl (fun index item => addFile T index item.1 item.2) empty

/-- A file is put in the list when it is added behind the files `pre`. -/
def Lists (T : TextLib) (pre : List (ℕ × GrfFile)) (item : ℕ × GrfFile) : Prop :=
  (added T (pre ++ [item])).reachable ≠ (added T pre).reachable

/-- A path names none of some files. -/
def Free (T : TextLib) (pre : List (ℕ × GrfFile)) (path : Str) : Prop :=
  ∀ g ∈ pre, ¬Names T path g.2.name

instance (pre : List (ℕ × GrfFile)) (path : Str) : Decidable (Free T pre path) := by
  unfold Free; infer_instance

/-- A file behind `pre` wins a key. -/
def Wins (T : TextLib) (pre : List (ℕ × GrfFile)) (item : ℕ × GrfFile) : Prop :=
  Free T pre item.2.name ∨ Free T pre (Encoding.toMojibake T item.2.name)

instance (pre : List (ℕ × GrfFile)) (item : ℕ × GrfFile) : Decidable (Wins T pre item) := by
  unfold Wins; infer_instance

lemma added_append (l : List (ℕ × GrfFile)) (item : ℕ × GrfFile) :
    added T (l ++ [item]) = addFile T (added T l) item.1 item.2 := by
  rw [added, List.foldl_append, List.foldl_cons, List.foldl_nil, ← added]

lemma files_added (l : List (ℕ × GrfFile)) : (added T l).files = l.map indexed := by
  rw [added, files_foldl]
  rfl

lemma findIdx?_eq_none_iff_free (l : List (ℕ × GrfFile)) (path : Str) :
    (l.findIdx? fun item => decide (Names T path item.2.name)) = none ↔ Free T l path := by
  simp [Free]

/-- Both keys of a path are free when it names no file, and taken otherwise. -/
lemma keys_added (l : List (ℕ × GrfFile)) (path : Str) :
    ((added T l).keys[normForward T path]? = none ↔ Free T l path) ∧
      ((added T l).keys[normBackward T path]? = none ↔ Free T l path) := by
  have hstart : ∀ k : Str, empty.keys[k]? = none := fun k => Std.HashMap.getElem?_empty
  rw [added, keys_foldl, keys_foldl, hstart, hstart, ← findIdx?_eq_none_iff_free]
  simp [mem_claimed_forward, mem_claimed_backward]

lemma claim_free {slot : BitVec 32} {key : Str} {keys : Std.HashMap Str (BitVec 32)}
    (h : keys[key]? = none) : (claim slot key keys).1 = true := by
  rw [claim, if_neg]
  rw [Std.HashMap.contains_eq_isSome_getElem?, h]
  simp

lemma claim_taken {slot : BitVec 32} {key : Str} {keys : Std.HashMap Str (BitVec 32)}
    (h : keys[key]? ≠ none) : claim slot key keys = (false, keys) := by
  rw [claim, if_pos]
  rw [Std.HashMap.contains_eq_isSome_getElem?]
  exact Option.isSome_iff_ne_none.mpr h

/-- **What puts a file in the list**: a key that it wins. -/
lemma reachable_added (pre : List (ℕ × GrfFile)) (item : ℕ × GrfFile) :
    (added T (pre ++ [item])).reachable = (added T pre).reachable ++
      if Wins T pre item then [BitVec.ofNat 32 pre.length] else [] := by
  have hlength : (added T pre).files.length = pre.length := by
    rw [files_added, List.length_map]
  rw [added_append, addFile, hlength]
  obtain ⟨hforward, hbackward⟩ := keys_added (T := T) pre item.2.name
  obtain ⟨hmforward, hmbackward⟩ := keys_added (T := T) pre (Encoding.toMojibake T item.2.name)
  by_cases hown : Free T pre item.2.name
  · rw [if_pos (show Wins T pre item from Or.inl hown)]
    simp only [claim_free (hforward.mpr hown), Bool.true_or, if_true]
  · -- The file wins nothing under its own name, and leaves the map as it was.
    simp only [claim_taken (mt hforward.mp hown), claim_taken (mt hbackward.mp hown)]
    by_cases hmojibake : Free T pre (Encoding.toMojibake T item.2.name)
    · have hne : Encoding.toMojibake T item.2.name ≠ item.2.name := by
        intro heq
        rw [heq] at hmojibake
        exact hown hmojibake
      rw [if_pos (show Wins T pre item from Or.inr hmojibake), if_pos hne]
      simp only [claim_free (hmforward.mpr hmojibake), Bool.true_or, Bool.or_true, if_true]
    · rw [if_neg (show ¬Wins T pre item from not_or.mpr ⟨hown, hmojibake⟩), List.append_nil]
      split
      · simp only [claim_taken (mt hmforward.mp hmojibake),
          claim_taken (mt hmbackward.mp hmojibake), Bool.or_self, Bool.false_eq_true, if_false]
      · simp only [Bool.or_self, Bool.false_eq_true, if_false]

lemma lists_iff (pre : List (ℕ × GrfFile)) (item : ℕ × GrfFile) :
    Lists T pre item ↔ Wins T pre item := by
  rw [Lists, reachable_added]
  split
  · next h => exact iff_of_true (by simp) h
  · next h => exact iff_of_false (by simp) h

/-- The files that win a key, with their places. -/
def winners (T : TextLib) (l : List (ℕ × GrfFile)) : List ((ℕ × GrfFile) × ℕ) :=
  l.zipIdx.filter fun x => decide (Wins T (l.take x.2) x.1)

lemma winners_append (l : List (ℕ × GrfFile)) (item : ℕ × GrfFile) :
    winners T (l ++ [item]) =
      winners T l ++ if Wins T l item then [(item, l.length)] else [] := by
  have hold : (l.zipIdx.filter fun x => decide (Wins T ((l ++ [item]).take x.2) x.1)) =
      winners T l := by
    refine List.filter_congr fun x hx => ?_
    have hlt : x.2 < l.length := by simpa using (List.mem_zipIdx hx).2.1
    rw [List.take_append_of_le_length hlt.le]
  rw [winners, List.zipIdx_append, List.filter_append, hold]
  simp [List.filter_singleton]

lemma reachable_eq (l : List (ℕ × GrfFile)) :
    (added T l).reachable = (winners T l).map fun x => BitVec.ofNat 32 x.2 := by
  induction l using List.reverseRecOn with
  | nil => rfl
  | append_singleton l item ih =>
    rw [reachable_added, winners_append, ih, List.map_append]
    split <;> rfl

lemma mem_winners {l : List (ℕ × GrfFile)} {x : (ℕ × GrfFile) × ℕ} :
    x ∈ winners T l ↔ ∃ pre post, l = pre ++ x.1 :: post ∧ pre.length = x.2 ∧ Wins T pre x.1 := by
  rw [winners, List.mem_filter, List.mem_zipIdx_iff_getElem?, decide_eq_true_eq]
  constructor
  · rintro ⟨hget, hwins⟩
    obtain ⟨hlt, heq⟩ := List.getElem?_eq_some_iff.mp hget
    refine ⟨l.take x.2, l.drop (x.2 + 1), ?_, by rw [List.length_take]; omega, hwins⟩
    rw [← heq, List.cons_getElem_drop_succ, List.take_append_drop]
  · rintro ⟨pre, post, rfl, hlen, hwins⟩
    rw [← hlen, List.take_left]
    exact ⟨by simp, hwins⟩

/-- A bound on the places of all files that win a key. -/
lemma winners_lt {l : List (ℕ × GrfFile)} {n : ℕ}
    (h : ∀ pre item post, l = pre ++ item :: post → Wins T pre item → pre.length < n) :
    ∀ x ∈ winners T l, x.2 < n := by
  intro x hx
  obtain ⟨pre, post, hl, hlen, hwins⟩ := mem_winners.mp hx
  rw [← hlen]
  exact h pre x.1 post hl hwins

/-- Files of different names make a list without a name twice. -/
lemma winners_nodup {l : List (ℕ × GrfFile)}
    (h : ∀ pre item post, l = pre ++ item :: post → Wins T pre item → Free T pre item.2.name) :
    ((winners T l).map fun x => normForward T x.1.2.name).Nodup := by
  induction l using List.reverseRecOn with
  | nil => exact List.nodup_nil
  | append_singleton l item ih =>
    have hold := ih fun pre x post hl => h pre x (post ++ [item]) (by rw [hl]; simp)
    rw [winners_append, List.map_append]
    split
    · next hwins =>
      refine hold.append (List.nodup_singleton _) ?_
      intro key hkey hnew
      obtain ⟨x, hx, rfl⟩ := List.mem_map.mp hkey
      obtain ⟨pre, post, hl, -, -⟩ := mem_winners.mp hx
      -- The file behind the others names none of them.
      refine h l item [] rfl hwins x.1 (by rw [hl]; simp) (Or.inl ?_)
      exact (List.mem_singleton.mp hnew).symm
    · simpa using hold

end AssetIndex

namespace Client

variable (platform : Platform) (cfg : Config)

lemma index_new (grfs : List Grf) :
    (Client.new platform cfg grfs).index = AssetIndex.build platform.text grfs := by
  by_cases hgrfs : grfs = []
  · rw [hgrfs]
    rfl
  · exact if_neg hgrfs

/-- The list has the name of every winner. -/
lemma listFiles_eq {grfs : List Grf}
    (hplaces : ∀ x ∈ AssetIndex.winners platform.text (AssetIndex.catalog grfs), x.2 < 2 ^ 32) :
    (Client.new platform cfg grfs).listFiles =
      .ok ((AssetIndex.winners platform.text (AssetIndex.catalog grfs)).map fun x =>
        x.1.2.name) := by
  rw [listFiles, index_new, AssetIndex.build_eq, ← AssetIndex.added, AssetIndex.reachable_eq,
    AssetIndex.files_added]
  refine mapM_map_ok fun x hx => ?_
  obtain ⟨pre, post, hl, hlen, -⟩ := AssetIndex.mem_winners.mp hx
  have hget : ((AssetIndex.catalog grfs).map AssetIndex.indexed)[x.2]? =
      some (AssetIndex.indexed x.1) := by
    rw [hl, ← hlen]
    simp
  rw [BitVec.toNat_ofNat, Nat.mod_eq_of_lt (hplaces x hx), index_eq_of_getElem? hget]
  rfl

end Client

namespace AssetIndex

variable {T : TextLib}

/-! ## When the list is exact -/

/-- A list of names that shows what the archives hold. -/
structure ExactList (T : TextLib) (grfs : List Grf) (names : List Str) : Prop where
  /-- No two names are equal up to case and slashes. -/
  distinct : (names.map (normForward T)).Nodup
  /-- Every file is represented. -/
  complete : ∀ item ∈ catalog grfs, normForward T item.2.name ∈ names.map (normForward T)
  /-- A listed name returns the file that put it in the list. -/
  reached : ∀ pre item post, catalog grfs = pre ++ item :: post → Lists T pre item →
    Reaches T grfs item.2.name item
  /-- A file that an earlier archive overrides is not listed, and not served at all. -/
  overridden : ∀ pre item post, catalog grfs = pre ++ item :: post →
    (∃ g ∈ pre, g.1 < item.1 ∧ normForward T g.2.name = normForward T item.2.name) →
    ¬Lists T pre item ∧ ∀ path, ¬Reaches T grfs path item

/-- A file behind `pre` either has its own name to itself, within what the index can count, or
wins no key, and its name belongs to a file of that name. -/
def Settled (T : TextLib) (pre : List (ℕ × GrfFile)) (item : ℕ × GrfFile) : Prop :=
  (Free T pre item.2.name ∧ item.1 < 65536 ∧ pre.length < 2 ^ 32) ∨
  (∃ g, (pre.find? fun g => decide (Names T item.2.name g.2.name)) = some g ∧
    normForward T g.2.name = normForward T item.2.name) ∧
  ¬Free T pre (Encoding.toMojibake T item.2.name)

/-- A winner has a name that no file before it has. -/
lemma Wins.name_ne {pre : List (ℕ × GrfFile)} {item : ℕ × GrfFile} (h : Wins T pre item) :
    ∀ g ∈ pre, g.2.name ≠ item.2.name := by
  intro g hg heq
  rcases h with h | h
  · exact h g hg (Or.inl (by rw [heq]))
  · exact h g hg (Or.inr (by rw [heq]))

/-- A settled winner has its own name to itself. -/
lemma Settled.of_wins {pre : List (ℕ × GrfFile)} {item : ℕ × GrfFile} (h : Settled T pre item)
    (hwins : Wins T pre item) :
    Free T pre item.2.name ∧ item.1 < 65536 ∧ pre.length < 2 ^ 32 := by
  rcases h with h | ⟨⟨g, hfind, -⟩, htaken⟩
  · exact h
  · rcases hwins with hfree | hfree
    · obtain ⟨hnames, -⟩ := List.find?_eq_some_iff_append.mp hfind
      exact absurd (of_decide_eq_true hnames) (hfree g (List.mem_of_find?_eq_some hfind))
    · exact absurd hfree htaken

lemma free_congr {pre : List (ℕ × GrfFile)} {p q : Str} (h : normForward T p = normForward T q) :
    Free T pre p ↔ Free T pre q := by
  simp only [Free, Names, h]

/-- The first file that a path names. -/
lemma find?_eq_some_of_free {pre : List (ℕ × GrfFile)} {item : ℕ × GrfFile} {path : Str}
    (hfree : Free T pre path) (hnames : Names T path item.2.name) (post : List (ℕ × GrfFile)) :
    ((pre ++ item :: post).find? fun g => decide (Names T path g.2.name)) = some item := by
  have hpre : (pre.find? fun g => decide (Names T path g.2.name)) = none := by
    rw [List.find?_eq_none]
    intro g hg
    simpa using hfree g hg
  rw [List.find?_append, hpre, Option.none_or, List.find?_cons_of_pos (by simpa using hnames)]

/-- A path that is not free behind `pre` names a first file of `pre`. -/
lemma exists_find?_of_not_free {pre : List (ℕ × GrfFile)} {path : Str} (h : ¬Free T pre path) :
    ∃ g before after, pre = before ++ g :: after ∧ Free T before path ∧
      Names T path g.2.name := by
  have hsome : ∃ g, (pre.find? fun g => decide (Names T path g.2.name)) = some g := by
    rw [← Option.isSome_iff_exists, List.find?_isSome]
    by_contra hnone
    refine h fun g hg hnames => hnone ⟨g, hg, ?_⟩
    exact decide_eq_true hnames
  obtain ⟨g, hg⟩ := hsome
  obtain ⟨hnames, before, after, hpre, hbefore⟩ := List.find?_eq_some_iff_append.mp hg
  refine ⟨g, before, after, hpre, ?_, of_decide_eq_true hnames⟩
  intro x hx
  simpa using hbefore x hx

/-- What a path reaches is the first file that it names, when that is within what the index can
count. -/
lemma eq_of_reaches {grfs : List Grf} {path : Str} {item : ℕ × GrfFile}
    (h : Reaches T grfs path item) : ∃ pre x post, catalog grfs = pre ++ x :: post ∧
      Free T pre path ∧ Names T path x.2.name ∧
      (x.1 < 65536 → pre.length < 2 ^ 32 → x.1 = item.1 ∧ x.2.name = item.2.name) := by
  have hnamed : ¬Free T (catalog grfs) path := by
    intro hfree
    obtain ⟨file, hfile, -⟩ := h
    rw [lookup_eq, (findIdx?_eq_none_iff_free _ path).mpr hfree] at hfile
    exact absurd hfile (by simp)
  obtain ⟨x, pre, post, hcat, hfree, hnames⟩ := exists_find?_of_not_free hnamed
  refine ⟨pre, x, post, hcat, hfree, hnames, ?_⟩
  intro hgrf hplace
  have hfind := findIdx?_of_first hfree hnames post
  rw [← hcat] at hfind
  obtain ⟨y, hy, hnumber, hname, -⟩ := (reaches_of_findIdx? hfind item).mp h
  rw [Nat.mod_eq_of_lt hplace, hcat, List.getElem?_append_right le_rfl, Nat.sub_self] at hy
  obtain rfl := Option.some.inj hy
  exact ⟨by omega, hname⟩

/-- The list of settled files is exact. -/
lemma exactList_of_settled {grfs : List Grf} (h : ∀ pre item post,
      catalog grfs = pre ++ item :: post → Settled T pre item) :
    ExactList T grfs ((winners T (catalog grfs)).map fun x => x.1.2.name) := by
  have hwinner : ∀ pre item post, catalog grfs = pre ++ item :: post → Wins T pre item →
      item.2.name ∈ (winners T (catalog grfs)).map fun x => x.1.2.name := by
    intro pre item post hcat hwins
    exact List.mem_map.mpr ⟨(item, pre.length), mem_winners.mpr ⟨pre, post, hcat, rfl, hwins⟩, rfl⟩
  constructor
  · rw [List.map_map]
    exact winners_nodup fun pre item post hcat hwins => ((h pre item post hcat).of_wins hwins).1
  · intro item hitem
    obtain ⟨pre, post, hcat⟩ := List.append_of_mem hitem
    rcases h pre item post hcat with ⟨hfree, -⟩ | ⟨⟨g, hfind, hsame⟩, -⟩
    · exact List.mem_map_of_mem (hwinner pre item post hcat (Or.inl hfree))
    · -- The file that has the name is listed for it.
      obtain ⟨-, before, after, rfl, hbefore⟩ := List.find?_eq_some_iff_append.mp hfind
      have hfree : Free T before g.2.name := by
        rw [free_congr hsame]
        intro x hx
        simpa using hbefore x hx
      rw [← hsame]
      exact List.mem_map_of_mem (hwinner before g (after ++ item :: post) (by rw [hcat]; simp)
        (Or.inl hfree))
  · intro pre item post hcat hlists
    have hwins := (lists_iff pre item).mp hlists
    obtain ⟨hfree, hcounted⟩ := (h pre item post hcat).of_wins hwins
    exact (reaches_iff hcat hwins.name_ne (Or.inl rfl)).mpr ⟨hcounted, hfree⟩
  · rintro pre item post hcat ⟨g, hg, hearlier, hsame⟩
    have htaken : ¬Free T pre item.2.name := fun hfree => hfree g hg (Or.inl hsame.symm)
    constructor
    · intro hlists
      exact htaken ((h pre item post hcat).of_wins ((lists_iff pre item).mp hlists)).1
    · intro path hreaches
      obtain ⟨before, x, after, hsplit, hfree, hnames, hequal⟩ := eq_of_reaches hreaches
      have hwins : Wins T before x := hnames.imp (fun heq => (free_congr heq).mp hfree)
        fun heq => (free_congr heq).mp hfree
      obtain ⟨hown, hgrf, hplace⟩ := (h before x after hsplit).of_wins hwins
      obtain ⟨hnumber, hname⟩ := hequal hgrf hplace
      -- The overriding file is in an archive before that of `x`, so it comes before `x`.
      have hbefore : g ∈ before := by
        have hmem : g ∈ before ++ x :: after := by
          rw [← hsplit, hcat]
          exact List.mem_append_left _ hg
        have hpairs := catalog_pairwise grfs
        rw [hsplit] at hpairs
        rcases List.mem_append.mp hmem with hmem | hmem
        · exact hmem
        · rcases List.mem_cons.mp hmem with rfl | hmem
          · omega
          · have hle := (List.pairwise_cons.mp (List.pairwise_append.mp hpairs).2.1).1 g hmem
            omega
      exact hown g hbefore (Or.inl (by rw [hsame, hname]))

/-- In an exact list every file is settled. -/
lemma settled_of_exactList {grfs : List Grf} (hplaces : ∀ pre item post,
      catalog grfs = pre ++ item :: post → Wins T pre item →
        Free T pre item.2.name ∧ item.1 < 65536 ∧ pre.length < 2 ^ 32)
    (h : ExactList T grfs ((winners T (catalog grfs)).map fun x => x.1.2.name))
    {pre post : List (ℕ × GrfFile)} {item : ℕ × GrfFile}
    (hcat : catalog grfs = pre ++ item :: post) : Settled T pre item := by
  by_cases hwins : Wins T pre item
  · exact Or.inl (hplaces pre item post hcat hwins)
  obtain ⟨hown, hmojibake⟩ := not_or.mp hwins
  refine Or.inr ⟨?_, hmojibake⟩
  -- The name is listed for some file, which is the first that it names.
  obtain ⟨name, hname, hsame⟩ := List.mem_map.mp (h.complete item (by rw [hcat]; simp))
  obtain ⟨x, hx, rfl⟩ := List.mem_map.mp hname
  obtain ⟨before, after, hsplit, -, hxwins⟩ := mem_winners.mp hx
  have hfree := (hplaces before x.1 after hsplit hxwins).1
  rw [free_congr hsame] at hfree
  have hfirst := find?_eq_some_of_free hfree (Or.inl hsame.symm) after
  obtain ⟨g, front, rest, rfl, hgfree, hgnames⟩ := exists_find?_of_not_free hown
  have hfind := find?_eq_some_of_free hgfree hgnames rest
  have hfirst' := find?_eq_some_of_free hgfree hgnames (rest ++ item :: post)
  refine ⟨g, hfind, ?_⟩
  have heq : some g = some x.1 := by
    rw [← hfirst, ← hfirst', ← hsplit, hcat]
    simp
  rw [Option.some.inj heq]
  exact hsame

/-- **When the list is exact**: when every file of the archives is settled, and only then. -/
theorem listFiles_exact_iff (platform : Platform) (cfg : Config) (grfs : List Grf) :
    (∃ names, (Client.new platform cfg grfs).listFiles = .ok names ∧
      ExactList platform.text grfs names) ↔
    ∀ pre item post, catalog grfs = pre ++ item :: post → Settled platform.text pre item := by
  constructor
  · rintro ⟨names, hlist, hexact⟩ pre item post hcat
    have hplaces : ∀ pre item post, catalog grfs = pre ++ item :: post →
        Wins platform.text pre item →
        Free platform.text pre item.2.name ∧ item.1 < 65536 ∧ pre.length < 2 ^ 32 := by
      intro pre item post hcat hwins
      have hreaches := hexact.reached pre item post hcat ((lists_iff pre item).mpr hwins)
      exact ((reaches_iff hcat hwins.name_ne (Or.inl rfl)).mp hreaches).symm
    rw [Client.listFiles_eq platform cfg (winners_lt fun pre item post hcat hwins =>
      (hplaces pre item post hcat hwins).2.2)] at hlist
    rw [← Except.ok.inj hlist] at hexact
    exact settled_of_exactList hplaces hexact hcat
  · intro h
    have hplaces : ∀ x ∈ winners platform.text (catalog grfs), x.2 < 2 ^ 32 :=
      winners_lt fun pre item post hcat hwins => ((h pre item post hcat).of_wins hwins).2.2
    exact ⟨_, Client.listFiles_eq platform cfg hplaces, exactList_of_settled h⟩

/-! ## A list that is not -/

/-- The Cyrillic letter A, which CP949 has in both cases. -/
def capitalA : Char := Char.ofNat 0x410

def smallA : Char := Char.ofNat 0x430

/-- `koreanText` with this letter: 0xACA1 and 0xACD1 of the CP949 table. -/
def cyrillicText : TextLib :=
  { koreanText with
    eucKrEncode := fun s => s.flatMap fun c =>
      if c = capitalA then [0xAC, 0xA1] else if c = smallA then [0xAC, 0xD1] else eucKrBytes c
    toLowercase := fun s => s.map fun c => if c = capitalA then smallA else lowerLatin1 c }

/-- An overlay whose file has the capital letter, over an archive with the small one. -/
def cyrillicGrfs : List Grf := [fakeGrf [[capitalA]], fakeGrf [[smallA]]]

def cyrillicClient : Client :=
  .new { sampleClient.platform with text := cyrillicText } sampleClient.cfg cyrillicGrfs

/-- **A file that is overridden and listed.**  The two names are one up to case, so the second
file is never returned for its own; the mojibake of the two differ, so both are listed. -/
theorem overridden_is_listed :
    cyrillicClient.listFiles = .ok [[capitalA], [smallA]] ∧
    normForward cyrillicText [capitalA] = normForward cyrillicText [smallA] ∧
    cyrillicClient.index.lookup cyrillicText [smallA] =
      .ok (some (indexed (0, fakeFile [capitalA]))) ∧
    cyrillicClient.index.lookup cyrillicText (Encoding.toMojibake cyrillicText [smallA]) =
      .ok (some (indexed (1, fakeFile [smallA]))) := by
  have hwinners : winners cyrillicText (catalog cyrillicGrfs) =
      [((0, fakeFile [capitalA]), 0), ((1, fakeFile [smallA]), 1)] := by
    decide +kernel
  have hplaces : ∀ x ∈ winners cyrillicText (catalog cyrillicGrfs), x.2 < 2 ^ 32 := by
    rw [hwinners]
    decide
  have hindex : cyrillicClient.index = build cyrillicText cyrillicGrfs :=
    Client.index_new _ sampleClient.cfg cyrillicGrfs
  refine ⟨?_, by decide +kernel, ?_, ?_⟩
  · rw [cyrillicClient, Client.listFiles_eq _ _ hplaces, hwinners]
    rfl
  · rw [hindex, lookup_eq]
    decide +kernel
  · rw [hindex, lookup_eq]
    decide +kernel

end AssetIndex

end RemoteClient

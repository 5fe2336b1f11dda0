/-
# Searching the archives

A page searches the archives by a form with a field `filter`.  `FormSpells` is the writing of a
form: a plus for a blank, `%` and two hex digits for any byte, and most characters as they are.
However the filter is written there, and whatever fields are around it, what is searched for is
the filter, and the answer has one line for each listed name that matches (`search_finds`).
-/
import RemoteClient.Conventions
import RemoteClient.Listing

namespace RemoteClient

open Exec Http

/-! ## Forms -/

/-- A value of a form stands for some bytes. -/
inductive FormSpells : Str → List Byte → Prop
  | nil : FormSpells [] []
  | blank {s : Str} {bytes : List Byte} (h : FormSpells s bytes) :
    FormSpells ('+' :: s) (BitVec.ofNat 8 ' '.toNat :: bytes)
  | plain {c : Char} {s : Str} {bytes : List Byte} (hescape : c ≠ '%') (hplus : c ≠ '+')
      (hnext : c ≠ '&') (h : FormSpells s bytes) : FormSpells (c :: s) (utf8Bytes [c] ++ bytes)
  | escaped {high low : Char × ℕ} {s : Str} {bytes : List Byte} (hhigh : high ∈ hexDigits)
      (hlow : low ∈ hexDigits) (h : FormSpells s bytes) :
    FormSpells ('%' :: high.1 :: low.1 :: s) (BitVec.ofNat 8 (high.2 * 16 + low.2) :: bytes)

/-- A character that is not `%` has no such byte. -/
lemma ne_percent_of_mem {c : Char} (hc : c ≠ '%') : ∀ b ∈ utf8Bytes [c], b.toNat ≠ '%'.toNat := by
  intro b hb heq
  obtain ⟨c', hc', hcode⟩ := Utf8.mem_of_mem_encode hb (by rw [heq]; decide)
  rw [List.mem_singleton.mp hc', heq] at hcode
  exact hc (Char.toNat_inj.mp hcode)

/-- Blanks for pluses. -/
def plusExpanded (value : Str) : Str := value.map fun ch => if ch = '+' then ' ' else ch

namespace FormSpells

variable {value : Str} {bytes : List Byte}

/-- **What a form spells is what its value stands for**, once the pluses are blanks. -/
lemma spells (h : FormSpells value bytes) :
    PercentSpells (utf8Bytes (plusExpanded value)) bytes := by
  have hplus : ∀ p ∈ hexDigits, p.1 ≠ '+' := by decide
  induction h with
  | nil => exact .nil
  | @blank s bytes h ih =>
    have hblank : plusExpanded ('+' :: s) = ' ' :: plusExpanded s := rfl
    rw [hblank, utf8Bytes_ascii_cons (by decide)]
    exact .plain (by decide) ih
  | @plain c s bytes hescape hplus hnext h ih =>
    have hplain : plusExpanded (c :: s) = c :: plusExpanded s := by
      rw [plusExpanded, List.map_cons, if_neg hplus, plusExpanded]
    rw [hplain]
    have hcons : utf8Bytes (c :: plusExpanded s) = utf8Bytes [c] ++ utf8Bytes (plusExpanded s) :=
      Utf8.encode_cons c _
    rw [hcons]
    exact ih.append_plain (ne_percent_of_mem hescape)
  | @escaped high low s bytes hhigh hlow h ih =>
    have hescaped : plusExpanded ('%' :: high.1 :: low.1 :: s) =
        '%' :: high.1 :: low.1 :: plusExpanded s := by
      rw [plusExpanded, List.map_cons, List.map_cons, List.map_cons, if_neg (by decide),
        if_neg (hplus _ hhigh), if_neg (hplus _ hlow), plusExpanded]
    rw [hescaped, utf8Bytes_escaped hhigh hlow]
    exact .escaped hhigh hlow ih

lemma notMem_next (h : FormSpells value bytes) : '&' ∉ value := by
  have hhex : ∀ p ∈ hexDigits, p.1 ≠ '&' := by decide
  induction h with
  | nil => exact List.not_mem_nil
  | blank h ih => exact List.not_mem_cons_of_ne_of_not_mem (by decide) ih
  | plain hescape hplus hnext h ih => exact List.not_mem_cons_of_ne_of_not_mem hnext.symm ih
  | escaped hhigh hlow h ih =>
    refine List.not_mem_cons_of_ne_of_not_mem (by decide) ?_
    refine List.not_mem_cons_of_ne_of_not_mem (hhex _ hhigh).symm ?_
    exact List.not_mem_cons_of_ne_of_not_mem (hhex _ hlow).symm ih

end FormSpells

/-- The body is a form whose first field `filter` spells the filter. -/
structure AsksFor (headers : HeaderMap) (body : List Byte) (filter : Str) : Prop where
  form : "application/x-www-form-urlencoded".toList <+: headers.contentType.getD []
  fields : ∃ before value after,
    body = utf8Bytes (['&'].intercalate (before ++ ("filter=".toList ++ value) :: after)) ∧
    (∀ field ∈ before, '&' ∉ field ∧ ¬"filter=".toList <+: field) ∧
    (∀ field ∈ after, '&' ∉ field) ∧ FormSpells value (utf8Bytes filter)

namespace Client

variable {c : Client} {headers : HeaderMap} {body : List Byte} {filter : Str}

/-- The filter is read as it was meant. -/
lemma searchFilter_of_asks (hutf8 : ∀ s, c.platform.text.fromUtf8 (utf8Bytes s) = some s)
    (hlossy : ∀ s, c.platform.text.fromUtf8Lossy (utf8Bytes s) = s)
    (hpercent : c.platform.text.DecodesPercent) (h : AsksFor headers body filter) :
    c.searchFilter headers body = some filter := by
  obtain ⟨before, value, after, rfl, hbefore, hafter, hvalue⟩ := h.fields
  have hdecode : c.formDecode value = filter := by
    have hbytes := hpercent _ _ hvalue.spells
    rw [plusExpanded] at hbytes
    rw [formDecode, hbytes, hlossy]
  have hparts : (['&'].intercalate (before ++ ("filter=".toList ++ value) :: after)).splitOn '&' =
      before ++ ("filter=".toList ++ value) :: after := by
    refine List.splitOn_intercalate _ ?_ (by simp)
    intro field hfield
    rcases List.mem_append.mp hfield with hfield | hfield
    · exact (hbefore field hfield).1
    · rcases List.mem_cons.mp hfield with rfl | hfield
      · have hname : '&' ∉ "filter=".toList := by decide
        exact fun hmem => (List.mem_append.mp hmem).elim hname hvalue.notMem_next
      · exact hafter field hfield
  have hfilter : splitOnce '=' ("filter=".toList ++ value) = some ("filter".toList, value) := by
    refine splitOnce_eq_some_iff.mpr ⟨?_, by decide⟩
    rw [show "filter=".toList = "filter".toList ++ ['='] by decide, List.append_assoc]
    rfl
  have hother : ∀ field ∈ before, ∀ v, splitOnce '=' field ≠ some ("filter".toList, v) := by
    intro field hfield v hsplit
    refine (hbefore field hfield).2 ⟨v, ?_⟩
    rw [(splitOnce_eq_some_iff.mp hsplit).1,
      show "filter=".toList = "filter".toList ++ ['='] by decide, List.append_assoc]
    rfl
  rw [searchFilter, if_pos (List.isPrefixOf_iff_prefix.mpr h.form), hutf8]
  simp only
  rw [hparts, List.findSome?_append, List.findSome?_eq_none_iff.mpr, Option.none_or,
    List.findSome?_cons]
  · simp only [hfilter, if_true, hdecode]
  · intro field hfield
    have hne := hother field hfield
    cases hsplit : splitOnce '=' field with
    | none => rfl
    | some parts =>
      obtain ⟨key, v⟩ := parts
      exact if_neg fun hkey => hne v (by rw [hsplit, hkey])

/-- The names that a search finds. -/
def found (T : TextLib) (grfs : List Grf) (isMatch : Str → Bool) (gameData : Bool) : List Str :=
  if gameData then
    ((AssetIndex.winners T (AssetIndex.catalog grfs)).map fun x => x.1.2.name).filter isMatch
  else []

end Client

/-- What a search finds: the listed names that match, in the order of the list, for someone who
may have the game data; and they can be told apart in the text they are put in. -/
structure Finds (platform : Platform) (cfg : Config) (grfs : List Grf) (isMatch : Str → Bool)
    (gameData : Bool) (names : List Str) : Prop where
  listed : ∀ name, name ∈ names ↔ gameData = true ∧ isMatch name = true ∧
    ∃ pre item post, AssetIndex.catalog grfs = pre ++ item :: post ∧
      AssetIndex.Lists platform.text pre item ∧ item.2.name = name
  ordered : ∃ all, (Client.new platform cfg grfs).listFiles = .ok all ∧ names.Sublist all
  lines : names ≠ [] → (∀ name ∈ names, '\n' ∉ name) →
    (['\n'].intercalate names).splitOn '\n' = names

/-- So many files can be counted. -/
lemma AssetIndex.places_lt {T : TextLib} {grfs : List Grf}
    (hcount : (catalog grfs).length ≤ 2 ^ 32) : ∀ x ∈ winners T (catalog grfs), x.2 < 2 ^ 32 :=
  winners_lt fun pre item post hcat _ => by
    rw [hcat, List.length_append, List.length_cons] at hcount
    omega

lemma finds_found (platform : Platform) (cfg : Config) {grfs : List Grf}
    (hcount : (AssetIndex.catalog grfs).length ≤ 2 ^ 32) (isMatch : Str → Bool) (gameData : Bool) :
    Finds platform cfg grfs isMatch gameData
      (Client.found platform.text grfs isMatch gameData) where
  listed := by
    intro name
    cases gameData with
    | false => simp [Client.found]
    | true =>
      rw [Client.found, if_pos rfl, List.mem_filter, List.mem_map, and_comm]
      refine ⟨?_, ?_⟩
      · rintro ⟨hmatch, x, hx, rfl⟩
        obtain ⟨pre, post, hcat, -, hwins⟩ := AssetIndex.mem_winners.mp hx
        exact ⟨rfl, hmatch, pre, x.1, post, hcat, (AssetIndex.lists_iff pre x.1).mpr hwins, rfl⟩
      · rintro ⟨-, hmatch, pre, item, post, hcat, hlists, rfl⟩
        exact ⟨hmatch, (item, pre.length), AssetIndex.mem_winners.mpr
          ⟨pre, post, hcat, rfl, (AssetIndex.lists_iff pre item).mp hlists⟩, rfl⟩
  ordered := by
    refine ⟨_, Client.listFiles_eq platform cfg (AssetIndex.places_lt hcount), ?_⟩
    cases gameData with
    | false => exact List.nil_sublist _
    | true => exact List.filter_sublist
  lines := fun hne hlines => List.splitOn_intercalate _ hlines hne

/-- **A search finds what was asked for.**  However a form spells a filter, the answer has one
line for each listed name that matches it, without regard to case; it is empty for someone who
may not have the game data. -/
theorem search_finds (platform : Platform) (cfg : Config) (grfs : List Grf) (gameData : Bool)
    {headers : HeaderMap} {body : List Byte} {filter : Str} {isMatch : Str → Bool}
    (hutf8 : ∀ s, platform.text.fromUtf8 (utf8Bytes s) = some s)
    (hlossy : ∀ s, platform.text.fromUtf8Lossy (utf8Bytes s) = s)
    (hpercent : platform.text.DecodesPercent)
    (hcount : (AssetIndex.catalog grfs).length ≤ 2 ^ 32)
    (hsearch : cfg.clientEnablesearch = true) (hasks : AsksFor headers body filter)
    (hne : filter ≠ []) (hregex : platform.regex true filter = some isMatch) :
    ∃ names, Finds platform cfg grfs isMatch gameData names ∧
      (Client.new platform cfg grfs).serveSearch headers body gameData =
        some ((Client.new platform cfg grfs).compress headers
          { status := 200
            contentType := some "text/plain; charset=utf-8".toList
            body := [] } (utf8Bytes (['\n'].intercalate names))) := by
  refine ⟨_, finds_found platform cfg hcount isMatch gameData, ?_⟩
  have hfilter : (Client.new platform cfg grfs).searchFilter headers body = some filter :=
    Client.searchFilter_of_asks (c := Client.new platform cfg grfs) hutf8 hlossy hpercent hasks
  have hempty : filter.isEmpty = false := by simpa using hne
  have henabled : (Client.new platform cfg grfs).cfg.clientEnablesearch = true := hsearch
  have hmatch : (Client.new platform cfg grfs).platform.regex true filter = some isMatch := hregex
  have hfound : (if gameData = true then (Client.new platform cfg grfs).search isMatch else .ok []) =
      .ok (Client.found platform.text grfs isMatch gameData) := by
    cases gameData with
    | false => rfl
    | true =>
      rw [if_pos rfl, Client.search, Client.listFiles_eq platform cfg (AssetIndex.places_lt hcount),
        ok_bind]
      rfl
  simp only [Client.serveSearch, hfilter, Option.getD_some, henabled, hempty, hmatch, hfound,
    Bool.not_true, Bool.or_self, Bool.false_eq_true, if_false]

/-- A platform with the UTF-8 of Lean, where an expression of lower case letters and blanks is found
in the names that it is a part of, in any case. -/
def searchPlatform : Platform :=
  { sampleClient.platform with
    text := { TextLib.ascii with
      fromUtf8 := Utf8.decode
      fromUtf8Lossy := fun bytes => (Utf8.decode bytes).getD [] }
    regex := fun _ filter =>
      if filter.all fun ch => ch.isLower || ch = ' ' then
        some fun name => decide (filter <:+: asciiLower name)
      else none }

def searchHeaders : HeaderMap :=
  { contentType := some "application/x-www-form-urlencoded".toList }

lemma asks_sample : AsksFor searchHeaders (utf8Bytes "x=1&filter=a+%62".toList) "a b".toList where
  form := List.prefix_refl _
  fields := by
    refine ⟨["x=1".toList], "a+%62".toList, [], by decide, by decide, by decide, ?_⟩
    refine .plain (c := 'a') (by decide) (by decide) (by decide) (.blank ?_)
    exact @FormSpells.escaped ('6', 6) ('2', 2) [] [] (by decide) (by decide) .nil

/-- A filter with a blank and an escape in its spelling, which the first of two names has in
capitals. -/
theorem search_finds_sample : ∃ names,
    Finds searchPlatform { sampleClient.cfg with clientEnablesearch := true }
      [AssetIndex.fakeGrf ["x\\A B.txt".toList, "c".toList]]
      (fun name => decide ("a b".toList <:+: asciiLower name)) true names ∧
    (Client.new searchPlatform { sampleClient.cfg with clientEnablesearch := true }
      [AssetIndex.fakeGrf ["x\\A B.txt".toList, "c".toList]]).serveSearch searchHeaders
        (utf8Bytes "x=1&filter=a+%62".toList) true =
      some ((Client.new searchPlatform { sampleClient.cfg with clientEnablesearch := true }
        [AssetIndex.fakeGrf ["x\\A B.txt".toList, "c".toList]]).compress searchHeaders
        { status := 200
          contentType := some "text/plain; charset=utf-8".toList
          body := [] } (utf8Bytes (['\n'].intercalate names))) :=
  search_finds _ _ _ true Utf8.decode_encode
    (fun s => congrArg (·.getD []) (Utf8.decode_encode s)) decodesPercent_ascii (by decide) rfl
    asks_sample (by decide) rfl

end RemoteClient

/-
# The order of the archives

A DATA.INI lists archives with their indices.  `parseDataIni` reads it line by line and sorts
what it finds; an entry whose key is no index gets one above a million.

A document is what the lines of a text say, whatever their blanks and line ends are.  Of its
entries `Arranged` says in which order they have to come, and `parseDataIni` returns them in such
an order (`parseDataIni_order`).  Indices are 64-bit integers; an integer out of that range is
no index, and its entry stays where the lines put it (`large_keys_stay`).
-/
import RemoteClient.Paths
import RemoteClient.Lib.Numerals
import RemoteClient.Lib.StableSort
import RemoteClient.Lib.Text

namespace RemoteClient
namespace DataIni

open StableSort Text

/-! ## The code -/

/-- The entries so far, whether they are wanted, and the last index that was made up.  There are
never 2 ^ 63 lines to make one up for. -/
structure State where
  entries : List (ℤ × Str)
  inData : Bool
  fallbackIndex : ℤ

/-- A key as an `i64`. -/
def readIndex (key : Str) : Option ℤ := Numerals.parseSigned (2 ^ 63) key

def State.step (s : State) (line : Str) : State :=
  let line := trim line
  if line = [] ∨ line.head? = some ';' ∨ line.head? = some '#' then s
  else if line.head? = some '[' ∧ line.getLast? = some ']' then
    { s with inData := eqIgnoreAsciiCase (trim (line.drop 1).dropLast) "data".toList }
  else if !s.inData then s
  else
    match splitOnce '=' line with
    | none => s
    | some (key, value) =>
      let value := trim value
      if value = [] then s
      else
        match readIndex (trim key) with
        | some index => { s with entries := s.entries ++ [(index, value)] }
        | none =>
          { s with
            entries := s.entries ++ [(s.fallbackIndex + 1, value)]
            fallbackIndex := s.fallbackIndex + 1 }

/-- The `[Data]` section of a DATA.INI, in index order. -/
def parseDataIni (content : Str) : List Str :=
  let s := (lines content).foldl State.step ⟨[], false, 1000000⟩
  (sortByKey Prod.fst s.entries).map Prod.snd

/-! ## Documents -/

/-- What a line says. -/
inductive Line where
  /-- Nothing: a blank line, a comment, or no key with a value. -/
  | nothing
  | heading (name : Str)
  | entry (key value : Str)

/-- A line without the blanks at its ends is neither a comment nor a heading. -/
def Plain (line : Str) : Prop :=
  line ≠ [] ∧ line.head? ≠ some ';' ∧ line.head? ≠ some '#' ∧
    ¬(line.head? = some '[' ∧ line.getLast? = some ']')

instance decidablePlain (line : Str) : Decidable (Plain line) := inferInstanceAs (Decidable (_ ∧ _))

/-- A line says so in some text. -/
inductive Says : Line → Str → Prop
  | blank {s : Str} (h : trim s = []) : Says .nothing s
  | comment {s : Str} (h : (trim s).head? = some ';' ∨ (trim s).head? = some '#') :
    Says .nothing s
  | heading {s name : Str} (h : trim s = '[' :: (name ++ [']'])) : Says (.heading (trim name)) s
  | entry {s key value : Str} (hplain : Plain (trim s)) (h : trim s = key ++ '=' :: value)
      (hkey : '=' ∉ key) (hvalue : trim value ≠ []) : Says (.entry (trim key) (trim value)) s
  | noKey {s : Str} (hplain : Plain (trim s)) (h : '=' ∉ trim s) : Says .nothing s
  | noValue {s key value : Str} (hplain : Plain (trim s)) (h : trim s = key ++ '=' :: value)
      (hkey : '=' ∉ key) (hvalue : trim value = []) : Says .nothing s

/-- A document is written as a text. -/
def Written (doc : List Line) (text : Str) : Prop :=
  ∃ ls, Lined ls text ∧ List.Forall₂ Says doc ls

/-- The entries of the `[Data]` sections. -/
def dataEntries : (inData : Bool) → List Line → List (Str × Str)
  | _, [] => []
  | inData, .nothing :: doc => dataEntries inData doc
  | _, .heading name :: doc => dataEntries (asciiLower name = "data".toList) doc
  | inData, .entry key value :: doc =>
    if inData then (key, value) :: dataEntries inData doc else dataEntries inData doc

/-- The entries of a document, with the index of each that has one. -/
def indexed (doc : List Line) : List (Option ℤ × Str) :=
  (dataEntries false doc).map fun e => (readIndex e.1, e.2)

/-- A line says something. -/
lemma exists_says (s : Str) : ∃ l, Says l s := by
  by_cases hblank : trim s = []
  · exact ⟨_, .blank hblank⟩
  by_cases hcomment : (trim s).head? = some ';' ∨ (trim s).head? = some '#'
  · exact ⟨_, .comment hcomment⟩
  by_cases hheading : (trim s).head? = some '[' ∧ (trim s).getLast? = some ']'
  · obtain ⟨rest, hrest⟩ := List.head?_eq_some_iff.mp hheading.1
    rcases List.eq_nil_or_concat rest with rfl | ⟨name, last, rfl⟩
    · rw [hrest] at hheading
      exact absurd hheading.2 (by decide)
    · rw [hrest, List.concat_eq_append, ← List.cons_append, List.getLast?_concat] at hheading
      obtain rfl := Option.some.inj hheading.2
      exact ⟨_, .heading (hrest.trans (by rw [List.concat_eq_append]))⟩
  have hplain : Plain (trim s) := by
    rw [not_or] at hcomment
    exact ⟨hblank, hcomment.1, hcomment.2, hheading⟩
  by_cases hkey : '=' ∈ trim s
  · obtain ⟨key, value, hsplit, hkey⟩ := List.eq_append_cons_of_mem hkey
    by_cases hvalue : trim value = []
    · exact ⟨_, .noValue hplain hsplit hkey hvalue⟩
    · exact ⟨_, .entry hplain hsplit hkey hvalue⟩
  · exact ⟨_, .noKey hplain hkey⟩

/-- Every text is a document. -/
lemma exists_written (text : Str) : ∃ doc, Written doc text := by
  obtain ⟨ls, hls⟩ := exists_lined text
  have hdoc : ∃ doc, List.Forall₂ Says doc ls := by
    clear hls
    induction ls with
    | nil => exact ⟨[], .nil⟩
    | cons s ls ih =>
      obtain ⟨doc, hdoc⟩ := ih
      obtain ⟨l, hl⟩ := exists_says s
      exact ⟨l :: doc, .cons hl hdoc⟩
  obtain ⟨doc, hdoc⟩ := hdoc
  exact ⟨doc, ls, hls, hdoc⟩

/-- A document is written when its lines say so. -/
lemma written_of_says {doc : List Line} {text : Str} (h : List.Forall₂ Says doc (lines text)) :
    Written doc text := by
  obtain ⟨ls, hls⟩ := exists_lined text
  rw [hls.lines_eq] at h
  exact ⟨ls, hls, h⟩

/-! ## What the code reads -/

/-- What a line does to the state. -/
def State.take (s : State) : Line → State
  | .nothing => s
  | .heading name => { s with inData := asciiLower name = "data".toList }
  | .entry key value =>
    if s.inData then
      match readIndex key with
      | some index => { s with entries := s.entries ++ [(index, value)] }
      | none =>
        { s with
          entries := s.entries ++ [(s.fallbackIndex + 1, value)]
          fallbackIndex := s.fallbackIndex + 1 }
    else s

/-- Only what a line says counts. -/
lemma step_of_says {l : Line} {line : Str} (h : Says l line) (s : State) :
    s.step line = s.take l := by
  have hskip : ∀ {t : Str}, Plain t → ¬(t = [] ∨ t.head? = some ';' ∨ t.head? = some '#') :=
    fun hplain hor => hor.elim hplain.1 fun hor => hor.elim hplain.2.1 hplain.2.2.1
  unfold State.step
  cases h with
  | blank h => exact if_pos (.inl h)
  | comment h => exact if_pos (.inr h)
  | @heading _ name h =>
    simp only [h]
    rw [if_neg (by simp), if_pos ⟨rfl, by rw [← List.cons_append, List.getLast?_concat]⟩,
      List.drop_one, List.tail_cons, List.dropLast_concat]
    rfl
  | @entry _ key value hplain h hkey hvalue =>
    simp only [if_neg (hskip hplain), if_neg hplain.2.2.2, splitOnce_eq_some_iff.mpr ⟨h, hkey⟩,
      if_neg hvalue]
    cases hdata : s.inData with
    | false => simp [State.take, hdata]
    | true => simp [State.take, hdata]
  | noKey hplain h =>
    have hnone : splitOnce '=' (trim line) = none := by
      by_contra hsome
      obtain ⟨⟨key, value⟩, hsplit⟩ := Option.ne_none_iff_exists'.mp hsome
      exact h (by rw [(splitOnce_eq_some_iff.mp hsplit).1]; simp)
    simp only [if_neg (hskip hplain), if_neg hplain.2.2.2, hnone, ite_self, State.take]
  | noValue hplain h hkey hvalue =>
    simp only [if_neg (hskip hplain), if_neg hplain.2.2.2, splitOnce_eq_some_iff.mpr ⟨h, hkey⟩,
      if_pos hvalue, ite_self, State.take]

/-- Entries with the numbers they are sorted by: an index, or the next one that is made up. -/
def number : ℤ → List (Option ℤ × Str) → List (ℤ × Option ℤ × Str)
  | _, [] => []
  | last, (some index, value) :: entries => (index, some index, value) :: number last entries
  | last, (none, value) :: entries => (last + 1, none, value) :: number (last + 1) entries

/-- The entries that the lines of a document leave. -/
lemma entries_foldl {doc : List Line} {ls : List Str} (h : List.Forall₂ Says doc ls) (s : State) :
    (ls.foldl State.step s).entries = s.entries ++ (number s.fallbackIndex
      ((dataEntries s.inData doc).map fun e => (readIndex e.1, e.2))).map fun x => (x.1, x.2.2) := by
  induction h generalizing s with
  | nil => simp [dataEntries, number]
  | @cons l line doc ls hl _ ih =>
    rw [List.foldl_cons, step_of_says hl, ih]
    cases l with
    | nothing => rfl
    | heading name => rfl
    | entry key value =>
      rw [State.take, dataEntries]
      cases hdata : s.inData with
      | false => simp [hdata]
      | true =>
        cases hindex : readIndex key with
        | some index => simp [hindex, number]
        | none => simp [hindex, number]

/-- The archives in order, with the index of each that has one. -/
def arrange (entries : List (Option ℤ × Str)) : List (Option ℤ × Str) :=
  (sortByKey Prod.fst (number 1000000 entries)).map Prod.snd

lemma parseDataIni_eq {doc : List Line} {text : Str} (h : Written doc text) :
    parseDataIni text = (arrange (indexed doc)).map Prod.snd := by
  obtain ⟨ls, hls, hdoc⟩ := h
  have hentries := entries_foldl hdoc ⟨[], false, 1000000⟩
  simp only [parseDataIni, hls.lines_eq, hentries, List.nil_append, arrange, indexed]
  rw [sortByKey_map, List.map_map, List.map_map]
  rfl

/-! ## The order -/

/-- The order that the entries have to come in. -/
structure Arranged (entries arranged : List (Option ℤ × Str)) : Prop where
  perm : arranged.Perm entries
  ascending : arranged.Pairwise fun a b => ∀ i j, a.1 = some i → b.1 = some j → i ≤ j
  /-- Nothing without an index comes before an index up to a million. -/
  behind : arranged.Pairwise fun a b => a.1 = none → ∀ j, b.1 = some j → 1000000 < j
  /-- Entries with one index, and those without any, stay in the order of their lines. -/
  same : ∀ index : Option ℤ,
    arranged.filter (fun e => e.1 = index) = entries.filter fun e => e.1 = index

lemma map_number (last : ℤ) (entries : List (Option ℤ × Str)) :
    (number last entries).map Prod.snd = entries := by
  induction entries generalizing last with
  | nil => rfl
  | cons e entries ih =>
    obtain ⟨index, value⟩ := e
    cases index with
    | some index => exact congrArg (_ :: ·) (ih last)
    | none => exact congrArg (_ :: ·) (ih (last + 1))

/-- An index is the number of its entry, and made-up numbers are larger than the last one. -/
lemma number_spec {last : ℤ} {entries : List (Option ℤ × Str)} {x : ℤ × Option ℤ × Str}
    (hx : x ∈ number last entries) :
    (∀ i, x.2.1 = some i → x.1 = i) ∧ (x.2.1 = none → last < x.1) := by
  induction entries generalizing last with
  | nil => exact absurd hx (by simp [number])
  | cons e entries ih =>
    obtain ⟨index, value⟩ := e
    cases index with
    | some index =>
      rcases List.mem_cons.mp hx with rfl | hx
      · exact ⟨fun i h => Option.some.inj h, fun h => absurd h (by simp)⟩
      · exact ih hx
    | none =>
      rcases List.mem_cons.mp hx with rfl | hx
      · exact ⟨fun i h => absurd h (by simp), fun _ => by simp⟩
      · obtain ⟨hindex, hnone⟩ := ih hx
        exact ⟨hindex, fun h => by have := hnone h; omega⟩

/-- The made-up numbers increase. -/
lemma number_increasing (last : ℤ) (entries : List (Option ℤ × Str)) :
    ((number last entries).filter fun x => x.2.1 = none).Pairwise fun a b => a.1 ≤ b.1 := by
  induction entries generalizing last with
  | nil => exact List.Pairwise.nil
  | cons e entries ih =>
    obtain ⟨index, value⟩ := e
    cases index with
    | some index =>
      rw [number, List.filter_cons_of_neg (by simp)]
      exact ih last
    | none =>
      rw [number, List.filter_cons_of_pos (by simp)]
      refine List.pairwise_cons.mpr ⟨fun x hx => ?_, ih (last + 1)⟩
      obtain ⟨hx, hnone⟩ := List.mem_filter.mp hx
      exact ((number_spec hx).2 (of_decide_eq_true hnone)).le

/-- Entries with one index, and those without any, are in order before they are sorted. -/
lemma number_stable (last : ℤ) (entries : List (Option ℤ × Str)) (index : Option ℤ) :
    ((number last entries).filter fun x => x.2.1 = index).Pairwise fun a b => a.1 ≤ b.1 := by
  cases index with
  | none => exact number_increasing last entries
  | some i =>
    refine List.pairwise_of_forall_mem_list fun a ha b hb => ?_
    obtain ⟨ha, hai⟩ := List.mem_filter.mp ha
    obtain ⟨hb, hbi⟩ := List.mem_filter.mp hb
    rw [(number_spec ha).1 i (of_decide_eq_true hai), (number_spec hb).1 i (of_decide_eq_true hbi)]

lemma filter_arrange (entries : List (Option ℤ × Str)) (index : Option ℤ) :
    (arrange entries).filter (fun e => e.1 = index) = entries.filter fun e => e.1 = index := by
  have hsorted := congrArg (List.map Prod.snd) (filter_sortByKey (number_stable 1000000 entries index))
  have hmap := List.filter_map (f := Prod.snd) (p := fun e : Option ℤ × Str => e.1 = index)
    (l := number 1000000 entries)
  rw [map_number] at hmap
  rw [arrange, List.filter_map]
  exact hsorted.trans hmap.symm

lemma arranged_arrange (entries : List (Option ℤ × Str)) : Arranged entries (arrange entries) := by
  have hmem : ∀ x ∈ sortByKey Prod.fst (number 1000000 entries), x ∈ number 1000000 entries :=
    fun x hx => (sortByKey_perm _ _).mem_iff.mp hx
  have hsorted := sortByKey_pairwise Prod.fst (number 1000000 entries)
  refine ⟨?_, ?_, ?_, filter_arrange entries⟩
  · have hperm := (sortByKey_perm Prod.fst (number 1000000 entries)).map Prod.snd
    rwa [map_number] at hperm
  · refine List.pairwise_map.mpr (hsorted.imp_of_mem fun {a b} ha hb hle i j hi hj => ?_)
    rw [← (number_spec (hmem a ha)).1 i hi, ← (number_spec (hmem b hb)).1 j hj]
    exact hle
  · refine List.pairwise_map.mpr (hsorted.imp_of_mem fun {a b} ha hb hle hnone j hj => ?_)
    have hlt := (number_spec (hmem a ha)).2 hnone
    rw [(number_spec (hmem b hb)).1 j hj] at hle
    omega

/-- An entry with an index. -/
def withIndex (e : ℤ × Str) : Option ℤ × Str := (some e.1, e.2)

/-- Entries that all have an index are sorted by it. -/
lemma arrange_withIndex (numbered : List (ℤ × Str)) :
    (arrange (numbered.map withIndex)).map Prod.snd =
      (sortByKey Prod.fst numbered).map Prod.snd := by
  have hnumber : ∀ last, number last (numbered.map withIndex) =
      numbered.map fun e => (e.1, some e.1, e.2) := by
    intro last
    induction numbered with
    | nil => rfl
    | cons e numbered ih => exact congrArg (_ :: ·) ih
  rw [arrange, hnumber, sortByKey_map, List.map_map, List.map_map]
  rfl

/-- **The archives come in the order of their indices**, the 64-bit integers among their keys.
Every text is a document; its entries are arranged; and documents with the same entries under
different indices, however they are written, have the same list, sorted by index. -/
theorem parseDataIni_order :
    (∀ text, ∃ doc, Written doc text) ∧
    (∀ doc text, Written doc text → ∃ arranged, Arranged (indexed doc) arranged ∧
      parseDataIni text = arranged.map Prod.snd) ∧
    ∀ doc doc' text text' numbered numbered', Written doc text → Written doc' text' →
      indexed doc = numbered.map withIndex → indexed doc' = numbered'.map withIndex →
      numbered.Perm numbered' → (numbered.map Prod.fst).Nodup →
      parseDataIni text = parseDataIni text' ∧ ∃ sorted : List (ℤ × Str),
        sorted.Perm numbered ∧ (sorted.Pairwise fun a b => a.1 < b.1) ∧
          parseDataIni text = sorted.map Prod.snd := by
  refine ⟨exists_written, fun doc text h => ⟨_, arranged_arrange _, parseDataIni_eq h⟩, ?_⟩
  intro doc doc' text text' numbered numbered' h h' hentries hentries' hperm hnodup
  have hlist := parseDataIni_eq h
  have hlist' := parseDataIni_eq h'
  rw [hentries, arrange_withIndex] at hlist
  rw [hentries', arrange_withIndex] at hlist'
  have hsorted : (sortByKey Prod.fst numbered).Perm numbered := sortByKey_perm _ _
  have hkeys : ((sortByKey Prod.fst numbered).map Prod.fst).Nodup :=
    (hsorted.map Prod.fst).nodup_iff.mpr hnodup
  have hsame : sortByKey Prod.fst numbered = sortByKey Prod.fst numbered' :=
    eq_of_perm_of_pairwise (hsorted.trans (hperm.trans (sortByKey_perm _ _).symm)) hkeys
      (sortByKey_pairwise _ _) (sortByKey_pairwise _ _)
  refine ⟨by rw [hlist, hlist', hsame], _, hsorted, ?_, hlist⟩
  exact ((sortByKey_pairwise _ _).and (List.pairwise_map.mp hkeys)).imp fun h =>
    lt_of_le_of_ne h.1 h.2

/-- Two entries under their indices, written in either order: in one section, and in two with a
comment before them. -/
theorem parseDataIni_order_sample :
    parseDataIni "[Data]\r\n1=b\r\n0=a\r\n".toList =
      parseDataIni "; c\n[data]\n 0 = a\n[DATA]\n+1=b".toList ∧
    ∃ sorted : List (ℤ × Str), sorted.Perm [(1, ['b']), (0, ['a'])] ∧
      (sorted.Pairwise fun a b => a.1 < b.1) ∧
      parseDataIni "[Data]\r\n1=b\r\n0=a\r\n".toList = sorted.map Prod.snd := by
  have hentry : ∀ line key value : Str,
      Plain (trim line) ∧ trim line = key ++ '=' :: value ∧ '=' ∉ key ∧ trim value ≠ [] →
      Says (.entry (trim key) (trim value)) line :=
    fun line key value h => .entry h.1 h.2.1 h.2.2.1 h.2.2.2
  have hfirst : Written [.heading "Data".toList, .entry ['1'] ['b'], .entry ['0'] ['a']]
      "[Data]\r\n1=b\r\n0=a\r\n".toList := by
    refine written_of_says ?_
    rw [show lines "[Data]\r\n1=b\r\n0=a\r\n".toList =
      ["[Data]".toList, "1=b".toList, "0=a".toList] by decide]
    exact .cons (@Says.heading _ "Data".toList rfl)
      (.cons (hentry _ ['1'] ['b'] (by decide)) (.cons (hentry _ ['0'] ['a'] (by decide)) .nil))
  have hsecond : Written [.nothing, .heading "data".toList, .entry ['0'] ['a'],
      .heading "DATA".toList, .entry ['+', '1'] ['b']]
      "; c\n[data]\n 0 = a\n[DATA]\n+1=b".toList := by
    refine written_of_says ?_
    rw [show lines "; c\n[data]\n 0 = a\n[DATA]\n+1=b".toList =
      ["; c".toList, "[data]".toList, " 0 = a".toList, "[DATA]".toList, "+1=b".toList] by decide]
    exact .cons (.comment (.inl (by decide))) (.cons (@Says.heading _ "data".toList rfl)
      (.cons (hentry _ ['0', ' '] [' ', 'a'] (by decide))
        (.cons (@Says.heading _ "DATA".toList rfl)
          (.cons (hentry _ ['+', '1'] ['b'] (by decide)) .nil))))
  exact parseDataIni_order.2.2 _ _ _ _ [(1, ['b']), (0, ['a'])] [(0, ['a']), (1, ['b'])] hfirst
    hsecond (by decide) (by decide) (by decide) (by decide)

example : parseDataIni "; overlay\n[Flags]\n0=c\n[data]\r\nx=d\r\n 1 = b \r\n+0=a\n".toList =
    [['a'], ['b'], ['d']] := by decide

/-- Two integers that are no indices: their entries stay as they are written. -/
theorem large_keys_stay :
    parseDataIni "[Data]\n9223372036854775808=a\n9223372036854775809=b".toList = [['a'], ['b']] ∧
    parseDataIni "[Data]\n9223372036854775809=b\n9223372036854775808=a".toList = [['b'], ['a']] ∧
    Numerals.parseDigits "9223372036854775808".toList = some 9223372036854775808 ∧
    Numerals.parseDigits "9223372036854775809".toList = some 9223372036854775809 := by
  refine ⟨by decide, by decide, by decide, by decide⟩

end DataIni
end RemoteClient

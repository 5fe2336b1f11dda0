/-
# Answers of the target

A service of the machine writes an answer: a status line, one line for each field, an empty line
and the body (`Message`).  What comes out of the connection is cut into reads anywhere.  A
message that says its length is passed on with its status, the fields a page needs and its whole
body, however it is cut and whatever comes behind it; another one when the connection closes
(`answer_is_relayed`).  One that says its length is never passed on in part
(`no_partial_answer`).
-/
import RemoteClient.Forwarding

namespace RemoteClient
namespace AppProxy

open Exec Lines

/-! ## Messages -/

/-- An answer as a service writes it. -/
structure Message where
  /-- What is behind `HTTP/1.`. -/
  version : Str
  status : ℕ
  reason : Str
  fields : List (Str × Str)
  body : List Byte

namespace Message

def statusLine (m : Message) : Str :=
  "HTTP/1.".toList ++ m.version ++ ' ' :: (Nat.toDigits 10 m.status ++ ' ' :: m.reason)

def lines (m : Message) : List Str := m.statusLine :: m.fields.map fieldLine

/-- The bytes on the connection. -/
def render (m : Message) : List Byte := utf8Bytes (unlines crlf m.lines) ++ m.body

/-- A name is a word, and a value has no control characters. -/
def FieldOk (f : Str × Str) : Prop :=
  (∀ c ∈ f.1, c ≠ ':' ∧ splits c = false ∧ Text.isWhite c = false) ∧ validValue f.2 = true

instance instDecidableFieldOk : DecidablePred FieldOk := fun f =>
  decidable_of_iff ((f.1.all fun c => c ≠ ':' ∧ splits c = false ∧ Text.isWhite c = false) = true ∧
    validValue f.2 = true) (by simp only [FieldOk, List.all_eq_true, decide_eq_true_eq])

/-- A message that is sent as it should be: its body is not chunked, and what is said of its
length is true. -/
structure WellFormed (m : Message) : Prop where
  version : Clean m.version ∧ ' ' ∉ m.version
  status : 100 ≤ m.status ∧ m.status ≤ 999
  reason : Clean m.reason
  fields : ∀ f ∈ m.fields, FieldOk f
  length : ∀ f ∈ m.fields, asciiLower f.1 = "content-length".toList →
    f.2 = Nat.toDigits 10 m.body.length
  plain : ∀ f ∈ m.fields, asciiLower f.1 ≠ "transfer-encoding".toList

/-- The message says how long its body is. -/
def Sized (m : Message) : Prop := ∃ f ∈ m.fields, asciiLower f.1 = "content-length".toList

/-- Neither a redirect nor informational. -/
def Passable (m : Message) : Prop :=
  ¬(100 ≤ m.status ∧ m.status ≤ 199) ∧ ¬(300 ≤ m.status ∧ m.status ≤ 399)

instance instDecidablePassable (m : Message) : Decidable m.Passable :=
  inferInstanceAs (Decidable (_ ∧ _))

/-- The names of the fields a page needs. -/
def keptNames : List Str := ["content-type", "cache-control", "set-cookie"].map String.toList

/-- Those fields, under lower-case names, and the one that is added. -/
def keptFields (fields : List (Str × Str)) : List (Str × Str) :=
  (fields.filter fun f => asciiLower f.1 ∈ keptNames).map fun f =>
    (asciiLower f.1, Text.trim f.2)

/-- What is passed on. -/
def passed (m : Message) : Answer :=
  ⟨m.status, keptFields m.fields ++ [("x-content-type-options".toList, "nosniff".toList)], m.body⟩

end Message

open Message

/-! ## Reading a head -/

variable {m : Message} {f : Str × Str} {fields : List (Str × Str)} {n : ℕ}

/-- A valid value ends no line. -/
lemma clean_of_validValue {s : Str} (h : validValue s = true) : Clean s := by
  intro c hc
  by_contra hsplits
  rw [Bool.not_eq_false, splits, Bool.or_eq_true, Bool.or_eq_true, decide_eq_true_iff,
    decide_eq_true_iff, decide_eq_true_iff] at hsplits
  have hlow : c.toNat < 128 ∧ ¬(32 ≤ c.toNat ∨ c.toNat = 9) := by
    rcases hsplits with (rfl | rfl) | rfl <;> decide
  obtain ⟨s, t, rfl⟩ := List.append_of_mem hc
  have hmem : BitVec.ofNat 8 c.toNat ∈ utf8Bytes (s ++ c :: t) := by
    have happend := Utf8.encode_append s (c :: t)
    have hcons := Utf8.encode_cons c t
    rw [Utf8.encode_ascii hlow.1] at hcons
    rw [show utf8Bytes (s ++ c :: t) = Utf8.encode (s ++ c :: t) from rfl, happend, hcons]
    simp
  have hbyte := List.all_eq_true.mp h _ hmem
  simp only [BitVec.toNat_ofNat, Nat.mod_eq_of_lt (show c.toNat < 2 ^ 8 by omega), Bool.or_eq_true,
    Bool.and_eq_true, decide_eq_true_iff] at hbyte
  omega

lemma trim_infix (s : Str) : Text.trim s <:+: s :=
  (List.rdropWhile_prefix Text.isWhite _).isInfix.trans (List.dropWhile_suffix Text.isWhite).isInfix

/-- A valid value stays valid when the blanks at its ends go. -/
lemma validValue_trim {s : Str} (h : validValue s = true) : validValue (Text.trim s) = true := by
  obtain ⟨x, y, hs⟩ := trim_infix s
  have hbytes : utf8Bytes s = utf8Bytes x ++ utf8Bytes (Text.trim s) ++ utf8Bytes y := by
    have happend := Utf8.encode_append
    have hrw : utf8Bytes s = Utf8.encode (x ++ Text.trim s ++ y) := congrArg Utf8.encode hs.symm
    rw [hrw, happend, happend]
    rfl
  rw [validValue, hbytes, List.all_append, List.all_append, Bool.and_eq_true,
    Bool.and_eq_true] at h
  exact h.1.2

/-- One line of the head, taken into account. -/
lemma take_fieldLine (hf : FieldOk f) (a : Answer) : a.take (fieldLine f) =
    if asciiLower f.1 ∈ keptNames then
      some { a with headers := a.headers ++ [(asciiLower f.1, Text.trim f.2)] }
    else if asciiLower f.1 = "content-length".toList then do
      let length ← Numerals.parseUnsigned wordSize (Text.trim f.2)
      if a.body.length < length then none else some { a with body := a.body.take length }
    else if asciiLower f.1 = "transfer-encoding".toList then none
    else some a := by
  have hsplit : splitOnce ':' (fieldLine f) = some (f.1, ' ' :: f.2) :=
    splitOnce_eq_some_iff.mpr ⟨by simp [fieldLine], fun h => (hf.1 _ h).1 rfl⟩
  have hname : Text.trim f.1 = f.1 := Text.trim_eq_self fun c hc => (hf.1 c hc).2.2
  have hvalue : Text.trim (' ' :: f.2) = Text.trim f.2 := Text.trim_cons_of_white (by decide) _
  simp only [Answer.take, hsplit, hname, hvalue, validValue_trim hf.2, if_true]
  rfl

/-- A field that tells the truth about a body of `n` bytes. -/
def Honest (n : ℕ) (f : Str × Str) : Prop :=
  FieldOk f ∧ (asciiLower f.1 = "content-length".toList → f.2 = Nat.toDigits 10 n) ∧
    asciiLower f.1 ≠ "transfer-encoding".toList

lemma keptFields_cons (f : Str × Str) (fields : List (Str × Str)) :
    keptFields (f :: fields) = keptFields [f] ++ keptFields fields := by
  simp only [keptFields, ← List.map_append, ← List.filter_append, List.singleton_append]

lemma keptFields_of_notMem (h : asciiLower f.1 ∉ keptNames) : keptFields [f] = [] := by
  rw [keptFields, List.filter_cons_of_neg (by simpa using h)]
  rfl

lemma Honest.trim_digits (hf : Honest n f) (hlength : asciiLower f.1 = "content-length".toList) :
    Text.trim f.2 = Nat.toDigits 10 n := by
  rw [hf.2.1 hlength]
  refine Text.trim_eq_self fun c hc => ?_
  obtain ⟨d, hd, rfl⟩ := Numerals.mem_toDigits (by decide) hc
  have hall : ∀ d < 10, Text.isWhite (Nat.digitChar d) = false := by decide
  exact hall d hd

lemma take_length (hf : Honest n f) (hn : n < 2 ^ 64)
    (hlength : asciiLower f.1 = "content-length".toList) (a : Answer) : a.take (fieldLine f) =
      if a.body.length < n then none
      else some ⟨a.status, a.headers ++ keptFields [f], a.body.take n⟩ := by
  have hkept : asciiLower f.1 ∉ keptNames := by
    rw [hlength]
    decide
  have hparse : Numerals.parseUnsigned wordSize (Nat.toDigits 10 n) = some n :=
    Numerals.parseUnsigned_toDigits hn
  rw [take_fieldLine hf.1, if_neg hkept, if_pos hlength, hf.trim_digits hlength, hparse,
    keptFields_of_notMem hkept, List.append_nil]
  rfl

/-- Also a length that does not fit into 64 bits refuses the body. -/
lemma take_short (hf : Honest n f) (hlength : asciiLower f.1 = "content-length".toList)
    {a : Answer} (hshort : a.body.length < n) : a.take (fieldLine f) = none := by
  by_cases hn : n < 2 ^ 64
  · rw [take_length hf hn hlength, if_pos hshort]
  · have hkept : asciiLower f.1 ∉ keptNames := by
      rw [hlength]
      decide
    have hparse : Numerals.parseUnsigned wordSize (Nat.toDigits 10 n) = none := by
      rw [Numerals.parseUnsigned, if_neg (Numerals.head?_toDigits (by decide) n),
        Numerals.parseDigits_toDigits]
      exact Option.filter_eq_none_iff.mpr fun k hk => by
        rw [← Option.some.inj hk, decide_eq_true_iff]
        exact hn
    rw [take_fieldLine hf.1, if_neg hkept, if_pos hlength, hf.trim_digits hlength, hparse]
    rfl

lemma take_other (hf : Honest n f) (hlength : asciiLower f.1 ≠ "content-length".toList)
    (a : Answer) :
    a.take (fieldLine f) = some ⟨a.status, a.headers ++ keptFields [f], a.body⟩ := by
  rw [take_fieldLine hf.1]
  by_cases hkept : asciiLower f.1 ∈ keptNames
  · rw [if_pos hkept, keptFields, List.filter_cons_of_pos (by simpa using hkept)]
    rfl
  · rw [if_neg hkept, if_neg hlength, if_neg hf.2.2, keptFields_of_notMem hkept, List.append_nil]

/-- The length that a field declares. -/
lemma contentLength_fieldLine (hf : Honest n f) (hn : n < 2 ^ 64) : contentLength (fieldLine f) =
    if asciiLower f.1 = "content-length".toList then some n else none := by
  have hsplit : splitOnce ':' (fieldLine f) = some (f.1, ' ' :: f.2) :=
    splitOnce_eq_some_iff.mpr ⟨by simp [fieldLine], fun h => (hf.1.1 _ h).1 rfl⟩
  have hname : Text.trim f.1 = f.1 := Text.trim_eq_self fun c hc => (hf.1.1 c hc).2.2
  have hlower : asciiLower "content-length".toList = "content-length".toList := by decide
  rw [contentLength, hsplit, Option.bind_some]
  by_cases hlength : asciiLower f.1 = "content-length".toList
  · have heq : eqIgnoreAsciiCase (Text.trim f.1) "content-length".toList = true :=
      decide_eq_true (by rw [hname, hlower, hlength])
    have hparse : Numerals.parseUnsigned wordSize (Text.trim (' ' :: f.2)) = some n := by
      rw [Text.trim_cons_of_white (by decide), hf.trim_digits hlength]
      exact Numerals.parseUnsigned_toDigits hn
    rw [if_pos hlength]
    exact (if_pos heq).trans hparse
  · have hne : ¬eqIgnoreAsciiCase (Text.trim f.1) "content-length".toList = true := fun heq =>
      hlength (by rw [← hname, ← hlower]; exact of_decide_eq_true heq)
    rw [if_neg hlength]
    exact if_neg hne

/-- The body stays when it is as long as it should be, or when nothing is said of its length. -/
lemma foldlM_settled (hn : n < 2 ^ 64) (hfields : ∀ f ∈ fields, Honest n f) {a : Answer}
    (h : a.body.length = n ∨ ∀ f ∈ fields, asciiLower f.1 ≠ "content-length".toList) :
    (fields.map fieldLine).foldlM Answer.take a =
      some ⟨a.status, a.headers ++ keptFields fields, a.body⟩ := by
  induction fields generalizing a with
  | nil => exact congrArg some (by rw [keptFields, List.filter_nil, List.map_nil, List.append_nil])
  | cons f fields ih =>
    have hf := hfields f (by simp)
    have htake : a.take (fieldLine f) =
        some ⟨a.status, a.headers ++ keptFields [f], a.body⟩ := by
      by_cases hlength : asciiLower f.1 = "content-length".toList
      · rcases h with rfl | h
        · rw [take_length hf hn hlength, if_neg (lt_irrefl _), List.take_length]
        · exact absurd hlength (h f (by simp))
      · exact take_other hf hlength a
    have hrest := ih (a := ⟨a.status, a.headers ++ keptFields [f], a.body⟩)
      (fun g hg => hfields g (List.mem_cons_of_mem _ hg))
      (h.imp_right fun h g hg => h g (List.mem_cons_of_mem _ hg))
    rw [List.map_cons, List.foldlM_cons, htake, Option.bind_eq_bind, Option.bind_some, hrest,
      keptFields_cons f fields, List.append_assoc]

/-- A length cuts the body. -/
lemma foldlM_sized (hn : n < 2 ^ 64) (hfields : ∀ f ∈ fields, Honest n f) {a : Answer}
    (h : ∃ f ∈ fields, asciiLower f.1 = "content-length".toList) (hle : n ≤ a.body.length) :
    (fields.map fieldLine).foldlM Answer.take a =
      some ⟨a.status, a.headers ++ keptFields fields, a.body.take n⟩ := by
  induction fields generalizing a with
  | nil => exact absurd h (by simp)
  | cons f fields ih =>
    have hf := hfields f (by simp)
    have hrest : ∀ g ∈ fields, Honest n g := fun g hg => hfields g (List.mem_cons_of_mem _ hg)
    rw [List.map_cons, List.foldlM_cons, keptFields_cons f fields]
    by_cases hlength : asciiLower f.1 = "content-length".toList
    · have hcut : (a.body.take n).length = n := List.length_take_of_le hle
      rw [take_length hf hn hlength, if_neg (not_lt.mpr hle), Option.bind_eq_bind, Option.bind_some,
        foldlM_settled hn hrest (.inl hcut)]
      simp
    · obtain ⟨g, hg, hglength⟩ := h
      have hg' : g ∈ fields := (List.mem_cons.mp hg).resolve_left fun heq => hlength (heq ▸ hglength)
      have htail := ih (a := ⟨a.status, a.headers ++ keptFields [f], a.body⟩) hrest
        ⟨g, hg', hglength⟩ hle
      rw [take_other hf hlength, Option.bind_eq_bind, Option.bind_some, htail, List.append_assoc]

/-- A length refuses a body that is too short. -/
lemma foldlM_short (hfields : ∀ f ∈ fields, Honest n f) {a : Answer}
    (h : ∃ f ∈ fields, asciiLower f.1 = "content-length".toList) (hshort : a.body.length < n) :
    (fields.map fieldLine).foldlM Answer.take a = none := by
  induction fields generalizing a with
  | nil => exact absurd h (by simp)
  | cons f fields ih =>
    have hf := hfields f (by simp)
    rw [List.map_cons, List.foldlM_cons]
    by_cases hlength : asciiLower f.1 = "content-length".toList
    · rw [take_short hf hlength hshort]
      rfl
    · obtain ⟨g, hg, hglength⟩ := h
      have hg' : g ∈ fields := (List.mem_cons.mp hg).resolve_left fun heq => hlength (heq ▸ hglength)
      rw [take_other hf hlength]
      exact ih (fun g hg => hfields g (List.mem_cons_of_mem _ hg)) ⟨g, hg', hglength⟩ hshort

/-! ## A message in parts -/

namespace Message

/-- The head without the empty line. -/
def head (m : Message) : Str := crlf.intercalate m.lines

namespace WellFormed

variable (h : m.WellFormed)
include h

lemma honest : ∀ f ∈ m.fields, Honest m.body.length f := fun f hf =>
  ⟨h.fields f hf, h.length f hf, h.plain f hf⟩

lemma clean_lines : ∀ l ∈ m.lines, l ≠ [] ∧ Clean l := by
  intro l hl
  rw [lines] at hl
  rcases List.mem_cons.mp hl with rfl | hl
  · have hstart : Clean "HTTP/1.".toList := by decide
    have hblank : Clean [' '] := by decide
    have hstatus : Clean (Nat.toDigits 10 m.status) := clean_toDigits (by decide) (by decide) _
    refine ⟨List.append_ne_nil_of_right_ne_nil _ (List.cons_ne_nil _ _), ?_⟩
    exact (hstart.append h.version.1).append
      (hblank.append (hstatus.append (hblank.append h.reason)))
  · obtain ⟨f, hf, rfl⟩ := List.mem_map.mp hl
    have hcolon : Clean ": ".toList := by decide
    obtain ⟨hname, hvalue⟩ := h.fields f hf
    have hclean : Clean f.1 := fun c hc => (hname c hc).2.1
    exact ⟨by simp [fieldLine], (hclean.append hcolon).append (clean_of_validValue hvalue)⟩

omit h in
lemma utf8Bytes_head (m : Message) :
    utf8Bytes m.head = (utf8Bytes crlf).intercalate (m.lines.map utf8Bytes) := by
  have happend := Utf8.encode_append
  have hall : ∀ lines : List Str, utf8Bytes (crlf.intercalate lines) =
      (utf8Bytes crlf).intercalate (lines.map utf8Bytes) := by
    intro lines
    induction lines with
    | nil => rfl
    | cons l lines ih =>
      cases lines with
      | nil => rw [List.intercalate_singleton, List.map_singleton, List.intercalate_singleton]
      | cons next lines =>
        rw [List.intercalate_cons_cons, List.map_cons, List.map_cons, List.intercalate_cons_cons,
          ← List.map_cons, ← ih]
        exact (happend _ _).trans (congrArg (· ++ _) (happend _ _))
  exact hall m.lines

/-- The head of a message ends where the message says. -/
lemma cut_render (more : List Byte) :
    Lines.cut blankLine (m.render ++ more) = some (utf8Bytes m.head, m.body ++ more) := by
  rw [render, utf8Bytes_unlines, List.append_assoc, utf8Bytes_head]
  exact cut_unlines (by decide) (by simp [lines]) (Clean.bytes h.clean_lines)

lemma split_head : Lines.split '\r' '\n' m.head = m.lines := by
  refine split_intercalate (List.cons_ne_nil _ _) fun l hl hcr => ?_
  exact absurd ((h.clean_lines l hl).2 _ hcr) (by decide)

lemma length_render : m.render.length = (utf8Bytes m.head).length + 4 + m.body.length := by
  have hparts := cut_eq_append (h.cut_render [])
  rw [List.append_nil, List.append_nil] at hparts
  rw [hparts, List.length_append, List.length_append]
  rfl

omit h in
lemma splitOn_cons {part : Str} (hpart : ' ' ∉ part) (rest : Str) :
    (part ++ ' ' :: rest).splitOn ' ' = part :: rest.splitOn ' ' := by
  have hrest : [' '].intercalate (rest.splitOn ' ') = rest := List.intercalate_splitOn ' '
  have hwhole : part ++ ' ' :: rest = [' '].intercalate (part :: rest.splitOn ' ') := by
    rw [List.intercalate_cons_of_ne_nil (List.splitOn_ne_nil ' ' rest), hrest]
    simp
  rw [hwhole, List.splitOn_intercalate]
  · intro p hp
    rcases List.mem_cons.mp hp with rfl | hp
    · exact hpart
    · exact (Text.splitOn_spec hp).1
  · exact List.cons_ne_nil _ _

omit h in
lemma parseStatus_of_parts {line version status : Str} {rest : List Str}
    (hparts : line.splitOn ' ' = version :: status :: rest)
    (hversion : "HTTP/1.".toList <+: version)
    (hstatus : Numerals.parseUnsigned (2 ^ 16) status = some n) : parseStatus line =
      if 100 ≤ n ∧ n ≤ 999 ∧ ¬(300 ≤ n ∧ n ≤ 399) ∧ ¬(100 ≤ n ∧ n ≤ 199) then some n else none := by
  have hstart : "HTTP/1.".toList.isPrefixOf version = true :=
    List.isPrefixOf_iff_prefix.mpr hversion
  rw [parseStatus, hparts]
  simp only [hstart, if_true, hstatus, Option.filter_some]
  refine if_congr ?_ rfl rfl
  simp only [Bool.and_eq_true, decide_eq_true_iff, Bool.not_eq_true', Bool.and_eq_false_iff,
    decide_eq_false_iff_not]
  omega

/-- The status is read, and the ones that are not passed on are refused. -/
lemma parseStatus_statusLine : parseStatus m.statusLine =
    if m.Passable then some m.status else none := by
  have hhttp : ' ' ∉ "HTTP/1.".toList := by decide
  have hversion : ' ' ∉ "HTTP/1.".toList ++ m.version := fun hmem =>
    (List.mem_append.mp hmem).elim hhttp h.version.2
  have hdigits : ' ' ∉ Nat.toDigits 10 m.status := fun hmem => by
    have hall := List.all_eq_true.mp (Numerals.all_isDigit_toDigits m.status) _ hmem
    exact absurd hall (by decide)
  obtain ⟨hlow, hhigh⟩ := h.status
  have hnumber : Numerals.parseUnsigned (2 ^ 16) (Nat.toDigits 10 m.status) = some m.status :=
    Numerals.parseUnsigned_toDigits (by omega)
  have hparts : m.statusLine.splitOn ' ' =
      ("HTTP/1.".toList ++ m.version) :: Nat.toDigits 10 m.status :: m.reason.splitOn ' ' := by
    exact (splitOn_cons hversion _).trans (congrArg _ (splitOn_cons hdigits _))
  rw [parseStatus_of_parts hparts (List.prefix_append _ _) hnumber]
  refine if_congr ?_ rfl rfl
  rw [Passable]
  omega

/-- An answer with this head and some body. -/
lemma parseResponse_of_cut {raw body : List Byte}
    (hcut : Lines.cut blankLine raw = some (utf8Bytes m.head, body)) : parseResponse raw =
      (parseStatus m.statusLine).bind fun status =>
        ((m.fields.map fieldLine).foldlM Answer.take ⟨status, [], body⟩).map fun a =>
          { a with headers :=
              a.headers ++ [("x-content-type-options".toList, "nosniff".toList)] } := by
  have hdecode : Utf8.decode (utf8Bytes m.head) = some m.head := Utf8.decode_encode m.head
  simp only [parseResponse, hcut, Option.bind_eq_bind, Option.bind_some, hdecode, h.split_head,
    lines, List.headD_cons, List.drop_succ_cons, List.drop_zero, Option.map_eq_bind]
  rfl

/-- What is read of a whole message, and of what is behind one that says its length. -/
lemma parseResponse_render (hbody : m.body.length < 2 ^ 64) {more : List Byte}
    (hmore : m.Sized ∨ more = []) : parseResponse (m.render ++ more) =
      if m.Passable then some m.passed else none := by
  rw [h.parseResponse_of_cut (h.cut_render more), h.parseStatus_statusLine]
  have hfold : (m.fields.map fieldLine).foldlM Answer.take ⟨m.status, [], m.body ++ more⟩ =
      some ⟨m.status, keptFields m.fields, m.body⟩ := by
    rcases hmore with hsized | rfl
    · rw [foldlM_sized hbody h.honest hsized (by simp)]
      simp
    · rw [foldlM_settled hbody h.honest (.inl (by simp))]
      simp
  by_cases hpass : m.Passable
  · rw [if_pos hpass, if_pos hpass, Option.bind_some, hfold]
    rfl
  · rw [if_neg hpass, if_neg hpass]
    rfl

/-- A part of a message that says its length is no answer. -/
lemma parseResponse_short (hsized : m.Sized) {stop more : List Byte}
    (hstop : stop ++ more = m.render) (hmore : more ≠ []) : parseResponse stop = none := by
  cases hcut : Lines.cut blankLine stop with
  | none => simp [parseResponse, hcut]
  | some parts =>
    obtain ⟨head, body⟩ := parts
    have hrender := h.cut_render []
    rw [List.append_nil, List.append_nil, ← hstop, cut_append hcut more] at hrender
    obtain ⟨rfl, hwhole⟩ := Prod.mk.inj (Option.some.inj hrender)
    have hshort : body.length < m.body.length := by
      have hpos := List.length_pos_of_ne_nil hmore
      rw [← hwhole, List.length_append]
      omega
    rw [h.parseResponse_of_cut hcut]
    refine Option.bind_eq_none_iff.mpr fun status _ => ?_
    rw [foldlM_short h.honest hsized hshort]
    rfl

/-- A message that says its length declares it. -/
lemma declares (hbody : m.body.length < 2 ^ 64) (hsized : m.Sized) (more : List Byte) :
    Declares (m.render ++ more) (utf8Bytes m.head) (m.body ++ more) m.body.length := by
  refine declares_iff.mpr ⟨h.cut_render more, m.head, Utf8.decode_encode m.head, ?_⟩
  rw [h.split_head]
  obtain ⟨f, hf, hlength⟩ := hsized
  change (m.fields.map fieldLine).findSome? contentLength = some m.body.length
  cases hfind : (m.fields.map fieldLine).findSome? contentLength with
  | none =>
    have hnone := List.findSome?_eq_none_iff.mp hfind _ (List.mem_map_of_mem hf)
    rw [contentLength_fieldLine (h.honest f hf) hbody, if_pos hlength] at hnone
    exact absurd hnone (by simp)
  | some k =>
    obtain ⟨l, hl, hk⟩ := List.exists_of_findSome?_eq_some hfind
    obtain ⟨g, hg, rfl⟩ := List.mem_map.mp hl
    rw [contentLength_fieldLine (h.honest g hg) hbody] at hk
    exact ((Option.ite_none_right_eq_some.mp hk).2).symm

/-- A message that does not say its length declares none, and no part of it does. -/
lemma not_declares (hbody : m.body.length < 2 ^ 64) (hsized : ¬m.Sized) {stop : List Byte}
    (hstop : stop <+: m.render) : ¬∃ head rest length, Declares stop head rest length := by
  rintro ⟨head, rest, length, hdeclares⟩
  obtain ⟨more, hmore⟩ := hstop
  have hwhole := hdeclares.append more
  rw [hmore, ← List.append_nil m.render] at hwhole
  obtain ⟨hcut, text, htext, hfind⟩ := declares_iff.mp hwhole
  rw [h.cut_render] at hcut
  obtain ⟨rfl, -⟩ := Prod.mk.inj (Option.some.inj hcut)
  have hdecode : Utf8.decode (utf8Bytes m.head) = some m.head := Utf8.decode_encode m.head
  obtain rfl := Option.some.inj (hdecode.symm.trans htext)
  rw [h.split_head] at hfind
  obtain ⟨l, hl, hl'⟩ := List.exists_of_findSome?_eq_some hfind
  obtain ⟨f, hf, rfl⟩ := List.mem_map.mp (show l ∈ m.fields.map fieldLine from hl)
  rw [contentLength_fieldLine (h.honest f hf) hbody] at hl'
  exact hsized ⟨f, hf, (Option.ite_none_right_eq_some.mp hl').1⟩

/-! ### When it is whole -/

/-- While a message comes in that says its length, it is whole as soon as all of it is there. -/
lemma isComplete_sized {build : Build} {stop more : List Byte} (hsized : m.Sized)
    (hlen : m.render.length < 2 ^ 64) (hstop : stop <+: m.render ++ more) :
    isComplete build stop = .ok (decide (m.render.length ≤ stop.length)) := by
  have hrender := h.length_render
  have hbody : m.body.length < 2 ^ 64 := by omega
  obtain ⟨tail, htail⟩ := hstop
  by_cases hdeclares : ∃ head rest length, Declares stop head rest length
  · obtain ⟨head, rest, length, hdeclares⟩ := hdeclares
    have hwhole := hdeclares.append tail
    rw [htail] at hwhole
    obtain ⟨rfl, -, rfl⟩ := (h.declares hbody hsized more).unique hwhole
    rw [isComplete_of_fits hdeclares (by omega), hrender]
  · have hshort : ¬m.render.length ≤ stop.length := by
      intro hle
      obtain ⟨more', hmore'⟩ := List.prefix_of_prefix_length_le (List.prefix_append m.render more)
        ⟨tail, htail⟩ hle
      exact hdeclares ⟨_, _, _, hmore' ▸ h.declares hbody hsized more'⟩
    rw [isComplete_of_not hdeclares, decide_eq_false hshort]

/-- One that does not say it is never whole before the close. -/
lemma isComplete_unsized {build : Build} {stop : List Byte} (hsized : ¬m.Sized)
    (hlen : m.render.length < 2 ^ 64) (hstop : stop <+: m.render) :
    isComplete build stop = .ok false := by
  have hrender := h.length_render
  exact isComplete_of_not (h.not_declares (by omega) hsized hstop)

end WellFormed

end Message

/-! ## The exchange -/

section

variable {build : Build} {ending : Ending} {reads : List (List Byte)} {answer stop : List Byte}

/-- What the loop finds is a part of what came in, and within the limit. -/
lemma readLoop_bounds (h : readLoop build ending reads answer = .ok stop) :
    stop <+: answer ++ reads.flatten ∧ (stop = answer ∨ stop.length ≤ maxResponse) := by
  induction reads generalizing answer with
  | nil =>
    cases ending with
    | closed => exact ⟨by simp [Except.ok.inj h], .inl (Except.ok.inj h).symm⟩
    | broken => exact absurd h (by simp [readLoop, fail])
    | silent => exact absurd h (by simp [readLoop, fail])
  | cons chunk reads ih =>
    rw [readLoop] at h
    split at h
    · obtain rfl := Except.ok.inj h
      exact ⟨List.prefix_append _ _, .inl rfl⟩
    · simp only at h
      have hflat : answer ++ (chunk :: reads).flatten = answer ++ chunk ++ reads.flatten := by simp
      rw [hflat]
      split at h
      · exact absurd h (by simp [fail])
      · next hmax =>
        obtain ⟨complete, -, h⟩ := bind_eq_ok.mp h
        split at h
        · obtain rfl := Except.ok.inj h
          exact ⟨List.prefix_append _ _, .inr (not_lt.mp hmax)⟩
        · obtain ⟨hinitial, hbound⟩ := ih h
          refine ⟨hinitial, .inr ?_⟩
          rcases hbound with rfl | hbound
          · exact not_lt.mp hmax
          · exact hbound

/-- The loop finds an answer when it can tell of each part of what comes in whether it is whole,
and all of it is or the connection closes. -/
lemma readLoop_finds (build : Build) (ending : Ending) (later : List (List Byte))
    (answer : List Byte) (whole : List Byte → Bool) (hne : ∀ chunk ∈ reads, chunk ≠ [])
    (hmax : (answer ++ reads.flatten).length ≤ maxResponse)
    (hwhole : ∀ stop, stop <+: answer ++ reads.flatten → isComplete build stop = .ok (whole stop))
    (hend : reads ≠ [] ∧ whole (answer ++ reads.flatten) = true ∨
      later = [] ∧ ending = .closed) :
    ∃ stop, readLoop build ending (reads ++ later) answer = .ok stop ∧
      stop <+: answer ++ reads.flatten ∧
      (whole stop = true ∨ stop = answer ++ reads.flatten) := by
  induction reads generalizing answer with
  | nil =>
    obtain ⟨rfl, rfl⟩ := hend.resolve_left fun h => h.1 rfl
    exact ⟨answer, rfl, by simp, .inr (by simp)⟩
  | cons chunk reads ih =>
    have hflat : answer ++ (chunk :: reads).flatten = answer ++ chunk ++ reads.flatten := by simp
    rw [hflat] at hmax hwhole hend ⊢
    have hlen : ¬maxResponse < (answer ++ chunk).length := by
      rw [List.length_append] at hmax
      omega
    have hnow := hwhole (answer ++ chunk) (List.prefix_append _ _)
    rw [List.cons_append, readLoop, if_neg (hne chunk (by simp))]
    simp only [if_neg hlen, hnow, lift_ok, ok_bind]
    cases hcomplete : whole (answer ++ chunk) with
    | true => exact ⟨_, rfl, List.prefix_append _ _, .inl hcomplete⟩
    | false =>
      refine ih _ (fun c hc => hne c (List.mem_cons_of_mem _ hc)) hmax hwhole ?_
      refine hend.imp_left fun h => ⟨?_, h.2⟩
      -- If this were the last read, the answer would be whole by now.
      rintro rfl
      rw [List.flatten_nil, List.append_nil, hcomplete] at h
      exact absurd h.2 (by simp)

end

/-- The target takes the request, and the message comes in within the limit: one that says its
length with anything behind it, and another one up to the close. -/
structure Arrives (m : Message) (target : Target) : Prop where
  connects : target.connects = true
  takes : target.takes = none
  reads : ∃ reads later rest, target.reads = reads ++ later ∧ (∀ chunk ∈ reads, chunk ≠ []) ∧
    reads.flatten = m.render ++ rest ∧ reads.flatten.length ≤ maxResponse ∧
    (m.Sized ∨ later = [] ∧ rest = [] ∧ target.ending = .closed)

/-- The loop finds the message, and perhaps some of what is behind one that says its length. -/
lemma Arrives.readLoop {target : Target} (build : Build) (hm : m.WellFormed)
    (h : Arrives m target) : ∃ more, (m.Sized ∨ more = []) ∧ m.body.length < 2 ^ 64 ∧
      AppProxy.readLoop build target.ending target.reads [] = .ok (m.render ++ more) := by
  obtain ⟨reads, later, rest, hreads, hne, hflat, hmax, hkind⟩ := h.reads
  have hrender := hm.length_render
  have hlen : m.render.length + rest.length ≤ maxResponse := by
    rwa [← List.length_append, ← hflat]
  have hsmall : m.render.length < 2 ^ 64 := by
    rw [maxResponse] at hlen
    omega
  have hread : reads ≠ [] := by
    rintro rfl
    have hnil := congrArg List.length hflat
    rw [List.flatten_nil, List.length_nil, List.length_append] at hnil
    omega
  by_cases hsized : m.Sized
  · obtain ⟨stop, hstop, hinitial, hwhole⟩ := readLoop_finds build target.ending later []
      (fun stop => decide (m.render.length ≤ stop.length)) hne hmax
      (fun stop hstop => hm.isComplete_sized hsized hsmall (hflat ▸ hstop))
      (.inl ⟨hread, decide_eq_true (by rw [List.nil_append, hflat, List.length_append]; omega)⟩)
    rw [List.nil_append, hflat] at hinitial hwhole
    have hle : m.render.length ≤ stop.length := by
      rcases hwhole with hwhole | rfl
      · exact of_decide_eq_true hwhole
      · rw [List.length_append]
        omega
    obtain ⟨more, rfl⟩ := List.prefix_of_prefix_length_le (List.prefix_append _ _) hinitial hle
    exact ⟨more, .inl hsized, by omega, hreads ▸ hstop⟩
  · obtain ⟨rfl, rfl, hclosed⟩ := hkind.resolve_left hsized
    obtain ⟨stop, hstop, -, hwhole⟩ := readLoop_finds build target.ending [] []
      (fun _ => false) hne hmax
      (fun stop hstop => hm.isComplete_unsized hsized hsmall (by simpa [hflat] using hstop))
      (.inr ⟨rfl, hclosed⟩)
    obtain rfl := hwhole.resolve_left (by simp)
    refine ⟨[], .inr rfl, by omega, ?_⟩
    rw [hreads, hstop, List.nil_append, hflat]

variable {r : Request} {target : Target} {allowed : Str → Bool} {maxBody : ℕ} {who : String}

/-- **An answer of the target is passed on as it is**, however it is cut into reads: the status,
the fields a page needs in their order, and the whole body without what comes behind it.  Only
redirects and informational answers are refused. -/
theorem answer_is_relayed (build : Build) {body : List Byte}
    (haccepted : r.accepted allowed maxBody = .ok body) (hm : m.WellFormed)
    (harrives : Arrives m target) : (relay build r target allowed maxBody who).2 =
      .ok (if m.Passable then .passed m.passed
        else .own (Http.text 502 (who ++ " gave an unreadable answer"))) := by
  obtain ⟨more, hmore, hbody, hstop⟩ := harrives.readLoop build hm
  have hparse := hm.parseResponse_render hbody hmore
  simp only [relay, haccepted, exchange, harrives.connects, harrives.takes, Bool.not_true,
    Bool.false_eq_true, if_false, hstop, hparse]
  by_cases hpass : m.Passable
  · rw [if_pos hpass, if_pos hpass]
  · rw [if_neg hpass, if_neg hpass]

/-- A small answer. -/
def pongMessage : Message :=
  ⟨"1".toList, 200, "OK".toList, [("Content-Type".toList, "text/plain".toList),
    ("Server".toList, "pong".toList), ("Content-Length".toList, "4".toList)],
    utf8Bytes "pong".toList⟩

lemma wellFormed_pong : pongMessage.WellFormed where
  version := by decide
  status := by decide
  reason := by decide
  fields := by decide +kernel
  length := by decide +kernel
  plain := by decide +kernel

/-- It comes in two parts, with a byte behind it, and the connection stays open. -/
def pongTarget : Target :=
  ⟨true, none, [pongMessage.render.take 20, pongMessage.render.drop 20 ++ [33]], .silent⟩

/-- A request that is forwarded. -/
def pingRequest : Request := ⟨"POST".toList, none, some "/_app/ping".toList, [], some []⟩

lemma flatten_pong : pongTarget.reads.flatten = pongMessage.render ++ [33] := by
  simp [pongTarget, ← List.append_assoc]

lemma sized_pong : pongMessage.Sized :=
  ⟨("Content-Length".toList, "4".toList), by decide +kernel, by decide⟩

lemma arrives_pong : Arrives pongMessage pongTarget where
  connects := rfl
  takes := rfl
  reads := ⟨pongTarget.reads, [], [33], (List.append_nil _).symm, by decide +kernel, flatten_pong,
    by decide +kernel, .inl sized_pong⟩

/-- What comes in while the connection stays open is passed on. -/
theorem answer_is_relayed_pong :
    (relay .debug pingRequest pongTarget ("/_app/".toList.isPrefixOf ·) 4096 "The app").2 =
      .ok (if pongMessage.Passable then .passed pongMessage.passed
        else .own (Http.text 502 ("The app" ++ " gave an unreadable answer"))) :=
  answer_is_relayed .debug (by decide +kernel : pingRequest.accepted _ 4096 = .ok [])
    wellFormed_pong arrives_pong

/-- An answer that is passed on was read. -/
lemma relay_passed {build : Build} {a : Answer}
    (h : (relay build r target allowed maxBody who).2 = .ok (.passed a)) :
    ∃ stop, readLoop build target.ending target.reads [] = .ok stop ∧
      parseResponse stop = some a := by
  unfold relay at h
  split at h
  · exact absurd (Except.ok.inj h) (by simp)
  · simp only [exchange] at h
    split at h
    · next answer hanswer =>
      split at h
      · next a' hparse =>
        obtain rfl := Reply.passed.inj (Except.ok.inj h)
        refine ⟨answer, ?_, hparse⟩
        split at hanswer
        · exact absurd hanswer (by simp [fail])
        · split at hanswer
          · exact absurd hanswer (by simp [fail])
          · exact hanswer
      · exact absurd (Except.ok.inj h) (by simp)
    · exact absurd (Except.ok.inj h) (by simp)
    · exact absurd h (by simp [crash])
    · exact absurd h (by simp)

/-- **An answer that says its length is passed on whole or not at all**: when what comes in is a
part of it, or it and more, then what is passed on has its whole body. -/
theorem no_partial_answer (build : Build) {a : Answer} {rest : List Byte} (hm : m.WellFormed)
    (hsized : m.Sized) (hsent : target.reads.flatten <+: m.render ++ rest)
    (h : (relay build r target allowed maxBody who).2 = .ok (.passed a)) :
    a = m.passed ∧ m.Passable ∧ m.render <+: target.reads.flatten := by
  obtain ⟨stop, hstop, hparse⟩ := relay_passed h
  obtain ⟨hread, hbound⟩ := readLoop_bounds hstop
  rw [List.nil_append] at hread
  rcases le_or_gt m.render.length stop.length with hle | hlt
  · obtain ⟨more, rfl⟩ := List.prefix_of_prefix_length_le (List.prefix_append _ _)
      (hread.trans hsent) hle
    have hrender := hm.length_render
    have hbody : m.body.length < 2 ^ 64 := by
      rcases hbound with hnil | hbound
      · have hlen := congrArg List.length hnil
        rw [List.length_append, List.length_nil] at hlen
        omega
      · rw [List.length_append, maxResponse] at hbound
        omega
    rw [hm.parseResponse_render hbody (.inl hsized)] at hparse
    obtain ⟨hpass, ha⟩ := Option.ite_none_right_eq_some.mp hparse
    exact ⟨(Option.some.inj ha).symm, hpass, (List.prefix_append _ _).trans hread⟩
  · obtain ⟨more, hmore⟩ := List.prefix_of_prefix_length_le (hread.trans hsent)
      (List.prefix_append m.render rest) hlt.le
    have hne : more ≠ [] := by
      rintro rfl
      rw [List.append_nil] at hmore
      exact absurd (congrArg List.length hmore) hlt.ne
    rw [hm.parseResponse_short hsized hmore hne] at hparse
    exact absurd hparse (by simp)

/-- What is passed on of it. -/
def pongAnswer : Answer :=
  ⟨200, [("content-type".toList, "text/plain".toList),
    ("x-content-type-options".toList, "nosniff".toList)], utf8Bytes "pong".toList⟩

theorem no_partial_answer_pong : pongAnswer = pongMessage.passed ∧ pongMessage.Passable ∧
    pongMessage.render <+: pongTarget.reads.flatten :=
  @no_partial_answer pongMessage pingRequest pongTarget ("/_app/".toList.isPrefixOf ·) 4096
    "The app" .debug pongAnswer [33] wellFormed_pong sized_pong
    (flatten_pong ▸ List.prefix_refl _) (by rfl)

end AppProxy
end RemoteClient

/-
# When a proxied answer is whole

`isComplete` looks for the first length that the head declares and adds it to the place where
the body starts.  `Declares` says what it looks for, in numbers without a bound: the code agrees
with it unless the sum leaves the 64 bits (`isComplete_meets_iff`), and then it takes an answer
without its body for a whole one.

Such an answer is refused anyway, and otherwise what comes behind the declared length is cut
off.  So `relay` passes on the same answer wherever it stops to read (`early_stop_same_answer`).
-/
import RemoteClient.AppProxy

namespace RemoteClient
namespace AppProxy

open Exec

/-! ## Declared lengths -/

/-- A line `name: value` with the name Content-Length and a 64-bit number. -/
def DeclaresLength (l : Str) (length : ℕ) : Prop :=
  ∃ name value, l = name ++ ':' :: value ∧ ':' ∉ name ∧
    asciiLower (Text.trim name) = "content-length".toList ∧
    Numerals.parseUnsigned (2 ^ 64) (Text.trim value) = some length

/-- A UTF-8 head, a blank line and what follows, and the first length that is declared in a
line of the head behind the first one. -/
structure Declares (raw head rest : List Byte) (length : ℕ) : Prop where
  parts : raw = head ++ blankLine ++ rest
  first : ∀ x y, raw = x ++ blankLine ++ y → head.length ≤ x.length
  line : ∃ text before l behind, utf8Bytes text = head ∧
    (Lines.split '\r' '\n' text).drop 1 = before ++ l :: behind ∧
    DeclaresLength l length ∧ ∀ l' ∈ before, ∀ n, ¬DeclaresLength l' n

/-- As much body as the head declares is there. -/
def Whole (raw : List Byte) : Prop :=
  ∃ head rest length, Declares raw head rest length ∧ length ≤ rest.length

lemma contentLength_eq_some_iff {l : Str} {length : ℕ} :
    contentLength l = some length ↔ DeclaresLength l length := by
  unfold contentLength DeclaresLength
  constructor
  · intro h
    obtain ⟨⟨name, value⟩, hsplit, h⟩ := Option.bind_eq_some_iff.mp h
    obtain ⟨hl, hname⟩ := splitOnce_eq_some_iff.mp hsplit
    obtain ⟨heq, hparse⟩ := Option.ite_none_right_eq_some.mp h
    exact ⟨name, value, hl, hname, of_decide_eq_true heq, hparse⟩
  · rintro ⟨name, value, hl, hname, heq, hparse⟩
    rw [splitOnce_eq_some_iff.mpr ⟨hl, hname⟩, Option.bind_some]
    exact Option.ite_none_right_eq_some.mpr ⟨decide_eq_true heq, hparse⟩

lemma contentLength_eq_none_iff {l : Str} :
    contentLength l = none ↔ ∀ n, ¬DeclaresLength l n := by
  rw [Option.eq_none_iff_forall_ne_some]
  exact forall_congr' fun n => not_congr contentLength_eq_some_iff

variable {build : Build} {raw head rest : List Byte} {length : ℕ}

/-- The first length of a head, as the code finds it. -/
lemma declares_iff : Declares raw head rest length ↔
    Lines.cut blankLine raw = some (head, rest) ∧ ∃ text, Utf8.decode head = some text ∧
      ((Lines.split '\r' '\n' text).drop 1).findSome? contentLength = some length := by
  rw [Lines.cut_eq_some_iff]
  constructor
  · rintro ⟨hparts, hfirst, text, before, l, behind, htext, hlines, hl, hbefore⟩
    refine ⟨⟨hparts, hfirst⟩, text, Utf8.decode_eq_some_iff.mpr htext, ?_⟩
    exact List.findSome?_eq_some_iff.mpr ⟨before, l, behind, hlines,
      contentLength_eq_some_iff.mpr hl, fun l' h => contentLength_eq_none_iff.mpr (hbefore l' h)⟩
  · rintro ⟨⟨hparts, hfirst⟩, text, htext, hfind⟩
    obtain ⟨before, l, behind, hlines, hl, hbefore⟩ := List.findSome?_eq_some_iff.mp hfind
    exact ⟨hparts, hfirst, text, before, l, behind, Utf8.decode_eq_some_iff.mp htext, hlines,
      contentLength_eq_some_iff.mp hl, fun l' h => contentLength_eq_none_iff.mp (hbefore l' h)⟩

lemma Declares.length_eq (h : Declares raw head rest length) :
    raw.length = head.length + 4 + rest.length := by
  rw [h.parts]
  simp only [List.length_append]
  rfl

lemma Declares.lt (h : Declares raw head rest length) : length < 2 ^ 64 := by
  obtain ⟨_, _, _, _, _, _, ⟨_, _, _, _, _, hparse⟩, _⟩ := h.line
  exact of_decide_eq_true (Option.filter_eq_some_iff.mp hparse).2

/-- There is one such length. -/
lemma Declares.unique {head' rest' : List Byte} {length' : ℕ} (h : Declares raw head rest length)
    (h' : Declares raw head' rest' length') : head' = head ∧ rest' = rest ∧ length' = length := by
  obtain ⟨hcut, text, htext, hfind⟩ := declares_iff.mp h
  obtain ⟨hcut', text', htext', hfind'⟩ := declares_iff.mp h'
  obtain ⟨rfl, rfl⟩ := Prod.mk.inj (Option.some.inj (hcut.symm.trans hcut'))
  obtain rfl := Option.some.inj (htext.symm.trans htext')
  exact ⟨rfl, rfl, (Option.some.inj (hfind.symm.trans hfind')).symm⟩

lemma Declares.whole_iff (h : Declares raw head rest length) :
    Whole raw ↔ head.length + 4 + length ≤ raw.length := by
  rw [h.length_eq]
  constructor
  · rintro ⟨head', rest', length', h', hle⟩
    obtain ⟨rfl, rfl, rfl⟩ := h.unique h'
    omega
  · exact fun hle => ⟨head, rest, length, h, by omega⟩

/-! ## What the code makes of them -/

lemma isComplete_of_declares (h : Declares raw head rest length) :
    isComplete build raw = (do
      let start ← build.add head.length 4
      let needed ← build.add start length
      return needed ≤ raw.length) := by
  obtain ⟨hcut, text, htext, hfind⟩ := declares_iff.mp h
  simp only [isComplete, hcut, htext, hfind]

lemma isComplete_of_not (h : ¬∃ head rest length, Declares raw head rest length) :
    isComplete build raw = .ok false := by
  unfold isComplete
  split
  · rfl
  · next head rest hcut =>
    split
    · rfl
    · next text htext =>
      split
      · rfl
      · next length hfind => exact absurd ⟨head, rest, length, declares_iff.mpr
          ⟨hcut, text, htext, hfind⟩⟩ h

lemma Build.add_eq {a b : ℕ} (h : a + b < 2 ^ 64) : build.add a b = .ok (a + b) := by
  cases build with
  | debug => exact Exec.add_eq h
  | release => exact congrArg Except.ok (Nat.mod_eq_of_lt h)

/-- The comparison is right as long as the sum fits. -/
lemma isComplete_of_fits (h : Declares raw head rest length)
    (hfits : head.length + 4 + length < 2 ^ 64) :
    isComplete build raw = .ok (decide (head.length + 4 + length ≤ raw.length)) := by
  rw [isComplete_of_declares h, Build.add_eq (by omega), ok_bind, Build.add_eq hfits, ok_bind]
  rfl

/-- A sum that does not fit is a panic, or it is small. -/
lemma isComplete_of_overflow (h : Declares raw head rest length) (hlen : raw.length < 2 ^ 63)
    (hover : 2 ^ 64 ≤ head.length + 4 + length) :
    isComplete .debug raw = crash ∧ isComplete .release raw = .ok true := by
  have hraw := h.length_eq
  have hlt := h.lt
  constructor
  · rw [isComplete_of_declares h, Build.add_eq (by omega), ok_bind]
    change (Exec.add (head.length + 4) length >>= _) = _
    rw [Exec.add, if_neg (by rw [wordSize]; omega)]
    rfl
  · rw [isComplete_of_declares h, Build.add_eq (by omega), ok_bind]
    have hsmall : (head.length + 4 + length) % wordSize ≤ raw.length := by
      rw [wordSize]
      omega
    exact congrArg Except.ok (decide_eq_true hsmall)

/-- **When a whole answer is told from one that is not**: when the first declared length, added
to the place where the body starts, fits into 64 bits. -/
theorem isComplete_meets_iff (build : Build) {raw : List Byte} (hlen : raw.length < 2 ^ 63) :
    (∃ complete, isComplete build raw = .ok complete ∧ (complete = true ↔ Whole raw)) ↔
      ∀ head rest length, Declares raw head rest length → head.length + 4 + length < 2 ^ 64 := by
  constructor
  · rintro ⟨complete, hcomplete, hwhole⟩ head rest length h
    by_contra hfits
    obtain ⟨hdebug, hrelease⟩ := isComplete_of_overflow h hlen (not_lt.mp hfits)
    have hnot : ¬Whole raw := by
      rw [h.whole_iff]
      omega
    cases build with
    | debug => exact absurd (hdebug.symm.trans hcomplete) (by simp [crash])
    | release =>
      obtain rfl := Except.ok.inj (hrelease.symm.trans hcomplete)
      exact hnot (hwhole.mp rfl)
  · intro hfits
    by_cases h : ∃ head rest length, Declares raw head rest length
    · obtain ⟨head, rest, length, h⟩ := h
      refine ⟨_, isComplete_of_fits h (hfits head rest length h), ?_⟩
      rw [decide_eq_true_iff, h.whole_iff]
    · refine ⟨false, isComplete_of_not h, ?_⟩
      simp only [Bool.false_eq_true, false_iff]
      rintro ⟨head, rest, length, hdeclares, -⟩
      exact h ⟨head, rest, length, hdeclares⟩

/-- A head that declares almost 2 ^ 64 bytes, and no body. -/
def boastingHead : Str := "HTTP/1.1 200 OK\r\nContent-Length: 18446744073709551615".toList

def boastingAnswer : List Byte := utf8Bytes boastingHead ++ blankLine

lemma declares_boasting : Declares boastingAnswer (utf8Bytes boastingHead) [] (2 ^ 64 - 1) := by
  refine declares_iff.mpr ⟨by decide, boastingHead, Utf8.decode_encode _, by decide⟩

theorem isComplete_meets_boast :
    (∃ complete, isComplete .debug boastingAnswer = .ok complete ∧
      (complete = true ↔ Whole boastingAnswer)) ↔
    ∀ head rest length, Declares boastingAnswer head rest length →
      head.length + 4 + length < 2 ^ 64 :=
  isComplete_meets_iff .debug (by decide)

/-- It is whole in one build, and a panic in the other. -/
theorem boast_is_complete : isComplete .release boastingAnswer = .ok true ∧
    isComplete .debug boastingAnswer = crash ∧ ¬Whole boastingAnswer := by
  obtain ⟨hdebug, hrelease⟩ := isComplete_of_overflow declares_boasting (by decide) (by decide)
  refine ⟨hrelease, hdebug, ?_⟩
  rw [declares_boasting.whole_iff]
  decide

/-! ## More of the body -/

/-- An answer with more bytes behind it. -/
def Answer.extend (a : Answer) (more : List Byte) : Answer := { a with body := a.body ++ more }

section

variable {a : Answer} {l : Str} {more : List Byte}

/-- A declared length cuts the body, and refuses a shorter one. -/
lemma take_of_declares (h : DeclaresLength l length) :
    a.take l =
      if a.body.length < length then none else some { a with body := a.body.take length } := by
  obtain ⟨name, value, hl, hname, heq, hparse⟩ := h
  simp only [Answer.take, splitOnce_eq_some_iff.mpr ⟨hl, hname⟩, heq]
  rw [if_neg (by decide), if_pos trivial]
  change (Numerals.parseUnsigned (2 ^ 64) _).bind _ = _
  rw [hparse]
  rfl

/-- Bytes behind the declared length make no difference, and neither do some that are still too
few. -/
lemma take_extend (h : DeclaresLength l length)
    (hlength : length ≤ a.body.length ∨ (a.body ++ more).length < length) :
    (a.extend more).take l = a.take l := by
  rw [take_of_declares h, take_of_declares h]
  rcases hlength with hle | hlt
  · have hle' : length ≤ (a.extend more).body.length := by
      rw [Answer.extend, List.length_append]
      omega
    rw [if_neg (not_lt.mpr hle), if_neg (not_lt.mpr hle'), Answer.extend,
      List.take_append_of_le_length hle]
  · have hlt' : a.body.length < length := by
      rw [List.length_append] at hlt
      omega
    have hextended : (a.extend more).body.length < length := hlt
    rw [if_pos hlt', if_pos hextended]

/-- Other lines leave the body alone. -/
lemma take_of_not_declares (a : Answer) (more : List Byte) (h : ∀ n, ¬DeclaresLength l n) :
    (a.extend more).take l = (a.take l).map (·.extend more) ∧
      ∀ a', a.take l = some a' → a'.body = a.body := by
  unfold Answer.take
  cases hsplit : splitOnce ':' l with
  | none => exact ⟨rfl, fun a' ha' => by rw [← Option.some.inj ha']⟩
  | some parts =>
    obtain ⟨name, value⟩ := parts
    obtain ⟨hl, hname⟩ := splitOnce_eq_some_iff.mp hsplit
    simp only
    split
    · split
      · exact ⟨rfl, fun a' ha' => by rw [← Option.some.inj ha']⟩
      · exact ⟨rfl, fun a' ha' => absurd ha' (by simp)⟩
    · split
      · next heq =>
        -- A Content-Length without a number refuses the answer.
        have hparse : Numerals.parseUnsigned wordSize (Text.trim value) = none := by
          by_contra hsome
          obtain ⟨n, hn⟩ := Option.ne_none_iff_exists'.mp hsome
          exact h n ⟨name, value, hl, hname, heq, hn⟩
        rw [hparse]
        exact ⟨rfl, fun a' ha' => absurd ha' (by simp [bind])⟩
      · split
        · exact ⟨rfl, fun a' ha' => absurd ha' (by simp)⟩
        · exact ⟨rfl, fun a' ha' => by rw [← Option.some.inj ha']⟩

/-- The first line that declares a length decides about the bytes behind it. -/
lemma foldlM_extend {lines : List Str} (h : lines.findSome? contentLength = some length)
    (hlength : length ≤ a.body.length ∨ (a.body ++ more).length < length) :
    lines.foldlM Answer.take (a.extend more) = lines.foldlM Answer.take a := by
  induction lines generalizing a with
  | nil => exact absurd h (by simp)
  | cons l lines ih =>
    rw [List.foldlM_cons, List.foldlM_cons]
    cases hl : contentLength l with
    | some n =>
      rw [List.findSome?_cons, hl] at h
      obtain rfl := Option.some.inj h
      rw [take_extend (contentLength_eq_some_iff.mp hl) hlength]
    | none =>
      rw [List.findSome?_cons, hl] at h
      obtain ⟨hextend, hbody⟩ := take_of_not_declares a more (contentLength_eq_none_iff.mp hl)
      rw [hextend]
      cases hnext : a.take l with
      | none => rfl
      | some a' => exact ih h (by rwa [hbody a' hnext])

end

lemma Declares.append (h : Declares raw head rest length) (more : List Byte) :
    Declares (raw ++ more) head (rest ++ more) length := by
  obtain ⟨hcut, hline⟩ := declares_iff.mp h
  exact declares_iff.mpr ⟨Lines.cut_append hcut more, hline⟩

/-- More bytes leave what is passed on. -/
lemma parseResponse_append {more : List Byte} (h : Declares raw head rest length)
    (hlength : length ≤ rest.length ∨ (rest ++ more).length < length) :
    parseResponse (raw ++ more) = parseResponse raw := by
  obtain ⟨hcut, text, htext, hfind⟩ := declares_iff.mp h
  have hfold : ∀ status, ((Lines.split '\r' '\n' text).drop 1).foldlM Answer.take
      ⟨status, [], rest ++ more⟩ =
        ((Lines.split '\r' '\n' text).drop 1).foldlM Answer.take ⟨status, [], rest⟩ :=
    fun status => foldlM_extend (a := ⟨status, [], rest⟩) hfind hlength
  simp only [parseResponse, hcut, Lines.cut_append hcut more, htext, Option.bind_eq_bind,
    Option.bind_some, hfold]

/-! ## Stopping early -/

/-- The code takes an answer for whole when it is, or when it declares far too much. -/
lemma declares_of_isComplete (h : isComplete build raw = .ok true) :
    ∃ head rest length, Declares raw head rest length ∧
      (length ≤ rest.length ∨ 2 ^ 64 ≤ head.length + 4 + length) := by
  by_cases hdeclares : ∃ head rest length, Declares raw head rest length
  · obtain ⟨head, rest, length, hdeclares⟩ := hdeclares
    refine ⟨head, rest, length, hdeclares, ?_⟩
    by_cases hfits : head.length + 4 + length < 2 ^ 64
    · rw [isComplete_of_fits hdeclares hfits] at h
      have hle := of_decide_eq_true (Except.ok.inj h)
      rw [hdeclares.length_eq] at hle
      exact .inl (by omega)
    · exact .inr (not_lt.mp hfits)
  · rw [isComplete_of_not hdeclares] at h
    exact absurd (Except.ok.inj h) (by simp)

/-- Only the sum can panic. -/
lemma isComplete_cases (build : Build) (hlen : raw.length < 2 ^ 63) :
    (∃ complete, isComplete build raw = .ok complete) ∨
      build = .debug ∧ isComplete build raw = crash ∧ ∃ head rest length,
        Declares raw head rest length ∧ 2 ^ 64 ≤ head.length + 4 + length := by
  by_cases hdeclares : ∃ head rest length, Declares raw head rest length
  · obtain ⟨head, rest, length, hdeclares⟩ := hdeclares
    by_cases hfits : head.length + 4 + length < 2 ^ 64
    · exact .inl ⟨_, isComplete_of_fits hdeclares hfits⟩
    · obtain ⟨hdebug, hrelease⟩ := isComplete_of_overflow hdeclares hlen (not_lt.mp hfits)
      cases build with
      | debug => exact .inr ⟨rfl, hdebug, head, rest, length, hdeclares, not_lt.mp hfits⟩
      | release => exact .inl ⟨_, hrelease⟩
  · exact .inl ⟨false, isComplete_of_not hdeclares⟩

/-- Where the loop stops: at the end, or at an answer that is taken for whole. -/
lemma readLoop_stops {ending : Ending} {reads : List (List Byte)} {answer stop : List Byte}
    (hne : ∀ chunk ∈ reads, chunk ≠ []) (h : readLoop build ending reads answer = .ok stop) :
    ∃ more, answer ++ reads.flatten = stop ++ more ∧
      (more = [] ∨ isComplete build stop = .ok true) := by
  induction reads generalizing answer with
  | nil =>
    cases ending with
    | closed =>
      obtain rfl := Except.ok.inj h
      exact ⟨[], by simp, .inl rfl⟩
    | broken => exact absurd h (by simp [readLoop, fail])
    | silent => exact absurd h (by simp [readLoop, fail])
  | cons chunk reads ih =>
    rw [readLoop, if_neg (hne chunk (by simp))] at h
    simp only at h
    split at h
    · exact absurd h (by simp [fail])
    · obtain ⟨complete, hcomplete, h⟩ := bind_eq_ok.mp h
      rw [lift_eq_ok] at hcomplete
      cases complete with
      | true =>
        obtain rfl := Except.ok.inj h
        exact ⟨reads.flatten, by simp, .inr hcomplete⟩
      | false =>
        obtain ⟨more, hmore, hstop⟩ := ih (fun c hc => hne c (List.mem_cons_of_mem _ hc)) h
        exact ⟨more, by simpa using hmore, hstop⟩

/-- The loop ends, or it panics in the sum. -/
lemma readLoop_ends {reads : List (List Byte)} {answer : List Byte}
    (hne : ∀ chunk ∈ reads, chunk ≠ []) (hmax : (answer ++ reads.flatten).length ≤ maxResponse) :
    (∃ stop, readLoop build .closed reads answer = .ok stop) ∨
      build = .debug ∧ readLoop build .closed reads answer = crash ∧
        ∃ head rest length, Declares (answer ++ reads.flatten) head rest length ∧
          2 ^ 64 ≤ head.length + 4 + length := by
  induction reads generalizing answer with
  | nil => exact .inl ⟨answer, rfl⟩
  | cons chunk reads ih =>
    have hflat : answer ++ (chunk :: reads).flatten = answer ++ chunk ++ reads.flatten := by simp
    rw [hflat] at hmax ⊢
    have hlen : (answer ++ chunk).length ≤ maxResponse := by
      rw [List.length_append] at hmax
      omega
    rw [readLoop, if_neg (hne chunk (by simp))]
    simp only [if_neg (not_lt.mpr hlen)]
    rcases isComplete_cases build (hlen.trans_lt (by decide)) with
      ⟨complete, hcomplete⟩ | ⟨rfl, hcrash, head, rest, length, hdeclares, hover⟩
    · rw [hcomplete, lift_ok, ok_bind]
      cases complete with
      | true => exact .inl ⟨_, rfl⟩
      | false => exact ih (fun c hc => hne c (List.mem_cons_of_mem _ hc)) hmax
    · refine .inr ⟨rfl, ?_, head, _, length, hdeclares.append _, hover⟩
      rw [hcrash]
      rfl

/-- **Stopping early changes nothing.**  For every way an answer of at most `maxResponse` bytes
is cut into reads, what is passed on of the part that was read is what is passed on of all of
it.  The loop finds such a part, but for a panic on a length that no answer can have. -/
theorem early_stop_same_answer (build : Build) {reads : List (List Byte)}
    (hne : ∀ chunk ∈ reads, chunk ≠ []) (hmax : reads.flatten.length ≤ maxResponse) :
    (∀ ending stop, readLoop build ending reads [] = .ok stop →
      stop <+: reads.flatten ∧ parseResponse stop = parseResponse reads.flatten) ∧
    ((∃ stop, readLoop build .closed reads [] = .ok stop) ∨
      build = .debug ∧ readLoop build .closed reads [] = crash ∧
        ∃ head rest length, Declares reads.flatten head rest length ∧
          2 ^ 64 ≤ head.length + 4 + length) := by
  refine ⟨fun ending stop hstop => ?_, readLoop_ends hne hmax⟩
  obtain ⟨more, hmore, hstopped⟩ := readLoop_stops hne hstop
  rw [List.nil_append] at hmore
  refine ⟨⟨more, hmore.symm⟩, ?_⟩
  rcases hstopped with rfl | hcomplete
  · rw [hmore, List.append_nil]
  · have hlen : (stop ++ more).length ≤ 64 * 1024 := hmore ▸ hmax
    rw [List.length_append] at hlen
    obtain ⟨head, rest, length, hdeclares, hlength⟩ := declares_of_isComplete hcomplete
    have hraw := hdeclares.length_eq
    rw [hmore]
    refine (parseResponse_append hdeclares (hlength.imp_right fun hover => ?_)).symm
    rw [List.length_append]
    omega

/-- An answer in three reads, with more behind its body. -/
def junkReads : List (List Byte) :=
  ["HTTP/1.1 200 OK\r\nContent-Length: 2\r\n\r\n", "[", "]junk"].map fun s => utf8Bytes s.toList

theorem early_stop_before_junk :
    (∀ ending stop, readLoop .release ending junkReads [] = .ok stop →
      stop <+: junkReads.flatten ∧ parseResponse stop = parseResponse junkReads.flatten) ∧
    ((∃ stop, readLoop .release .closed junkReads [] = .ok stop) ∨
      Build.release = .debug ∧ readLoop .release .closed junkReads [] = crash ∧
        ∃ head rest length, Declares junkReads.flatten head rest length ∧
          2 ^ 64 ≤ head.length + 4 + length) :=
  early_stop_same_answer .release (by decide) (by decide)

end AppProxy
end RemoteClient

/-
# The forwarded request

`relay` puts the head of the request together from texts of the client.  `IsRequest` is what the
target reads: a request line with the path, one line for each field, an empty line, and the
body.  There is no other way to read the bytes, so nothing in the path or in a value starts a
line, a field or a request of its own (`relay_writes`).
-/
import RemoteClient.ProxiedAnswers

namespace RemoteClient
namespace AppProxy

open Exec Lines

/-! ## What the target reads -/

/-- The line of a field. -/
def fieldLine (f : Str × Str) : Str := f.1 ++ ": ".toList ++ f.2

/-- The fields that a forwarded request may have. -/
def forwardedFields : List Str :=
  ["connection", "content-length", "host", "origin", "cookie", "content-type",
    "x-forwarded-for"].map String.toList

/-- One well-formed POST of a path and a body, on behalf of a peer. -/
structure IsRequest (written : List Byte) (path peer : Str) (body : List Byte)
    (requestLine : Str) (fields : List (Str × Str)) : Prop where
  /-- The bytes are read as these lines and this body, and in no other way. -/
  reads : ∀ lines rest, Lines.Reads (utf8Bytes crlf) written lines rest ↔
    lines = (requestLine :: fields.map fieldLine).map utf8Bytes ∧ rest = body
  /-- No line has a character in it that could end it. -/
  clean : ∀ l ∈ requestLine :: fields.map fieldLine, ∀ c ∈ l, splits c = false
  requestLine : requestLine.splitOn ' ' = ["POST".toList, path, "HTTP/1.1".toList]
  /-- What is before the colon of a field's line is its name. -/
  names : ∀ f ∈ fields, splitOnce ':' (fieldLine f) = some (f.1, ' ' :: f.2)
  once : (fields.map fun f => asciiLower f.1).Nodup
  allowed : ∀ f ∈ fields, asciiLower f.1 ∈ forwardedFields
  length : ∃ f ∈ fields, DeclaresLength (fieldLine f) body.length
  peer : ∃ f ∈ fields, asciiLower f.1 = "x-forwarded-for".toList ∧ f.2 = peer

/-! ## Texts that do not split a line -/

/-- The text does not end a line. -/
def Clean (s : Str) : Prop := ∀ c ∈ s, splits c = false

instance (s : Str) : Decidable (Clean s) :=
  decidable_of_iff (s.any splits = false) (by simp [Clean])

namespace Clean

variable {s t : Str}

lemma append (hs : Clean s) (ht : Clean t) : Clean (s ++ t) := fun c hc =>
  (List.mem_append.mp hc).elim (hs c) (ht c)

/-- What is between the parts does not end a line either. -/
lemma intercalate {c : Char} (hc : splits c = false) {parts : List Str}
    (h : ∀ part ∈ parts, Clean part) : Clean ([c].intercalate parts) := by
  induction parts with
  | nil => exact fun c hc => absurd hc (by simp)
  | cons part parts ih =>
    have htail := ih fun p hp => h p (List.mem_cons_of_mem _ hp)
    cases parts with
    | nil => simpa [List.intercalate] using h part (by simp)
    | cons next parts =>
      rw [List.intercalate_cons_cons]
      refine ((h part (by simp)).append fun d hd => ?_).append htail
      rw [List.mem_singleton.mp hd]
      exact hc

lemma line (hs : Clean s) (name : Str) :
    AppProxy.line name s = fieldLine (name, s) ++ crlf := by
  have hany : s.any splits = false := by
    rw [List.any_eq_false]
    exact fun c hc => by simp [hs c hc]
  rw [AppProxy.line, hany]
  rfl

end Clean

lemma clean_toDigits {b : ℕ} (hb : 1 < b) (hle : b ≤ 16) (n : ℕ) : Clean (Nat.toDigits b n) := by
  intro c hc
  obtain ⟨d, hd, rfl⟩ := Numerals.mem_toDigits hb hc
  have hall : ∀ d < 16, splits (Nat.digitChar d) = false := by decide
  exact hall d (by omega)

lemma clean_ipv4Text (octets : List Byte) : Clean (ipv4Text octets) := by
  refine Clean.intercalate (by decide) fun part hpart => ?_
  obtain ⟨b, -, rfl⟩ := List.mem_map.mp hpart
  exact clean_toDigits (by decide) (by decide) _

lemma clean_segmentsText (segments : List (BitVec 16)) : Clean (segmentsText segments) := by
  refine Clean.intercalate (by decide) fun part hpart => ?_
  obtain ⟨s, -, rfl⟩ := List.mem_map.mp hpart
  exact clean_toDigits (by decide) (by decide) _

lemma clean_ipv6Text (segments : List (BitVec 16)) : Clean (ipv6Text segments) := by
  have hcolons : Clean "::".toList := by decide
  have hmapped : Clean "::ffff:".toList := by decide
  unfold ipv6Text
  split
  · exact hmapped.append (clean_ipv4Text _)
  · simp only
    split
    · exact ((clean_segmentsText _).append hcolons).append (clean_segmentsText _)
    · exact clean_segmentsText _

lemma clean_peerText (r : Request) : Clean r.peerText := by
  unfold Request.peerText
  cases r.peer with
  | none => decide
  | some address =>
    cases address with
    | v4 octets => exact clean_ipv4Text _
    | v6 segments => exact clean_ipv6Text _

/-- A header that is a text has nothing but visible characters, blanks and tabs. -/
lemma clean_header {r : Request} {name value : Str} (h : r.header name = some value) :
    Clean value := by
  obtain ⟨bytes, -, hbytes⟩ := Option.bind_eq_some_iff.mp h
  obtain ⟨hvisible, hvalue⟩ := Option.ite_none_right_eq_some.mp hbytes
  obtain rfl := Option.some.inj hvalue
  intro c hc
  obtain ⟨b, hb, rfl⟩ := List.mem_map.mp hc
  have hall : ∀ b : Byte, isVisibleAscii b = true → splits (Char.ofNat b.toNat) = false := by
    decide +kernel
  exact hall b (List.all_eq_true.mp hvisible b hb)

/-! ## The lines of the head -/

namespace Request

variable (r : Request)

def requestLine : Str := ['P', 'O', 'S', 'T', ' '] ++ r.path ++ " HTTP/1.1".toList

/-- The fields of the head, in order. -/
def fields (length : ℕ) : List (Str × Str) :=
  [("Connection".toList, "close".toList), ("Content-Length".toList, Nat.toDigits 10 length),
    ("Host".toList, (r.header "host".toList).getD [])] ++
  (["origin".toList, "cookie".toList, "content-type".toList].filterMap fun name =>
    (r.header name).map fun value => (name, value)) ++
  [("X-Forwarded-For".toList, r.peerText)]

variable {r} {length : ℕ} {f : Str × Str}

lemma clean_host (r : Request) : Clean ((r.header "host".toList).getD []) := by
  cases hhost : r.header "host".toList with
  | none => exact fun c hc => absurd hc (by simp)
  | some value => exact clean_header hhost

lemma clean_field (hf : f ∈ r.fields length) : Clean f.2 := by
  rcases List.mem_append.mp hf with hf | hf
  · rcases List.mem_append.mp hf with hf | hf
    · simp only [List.mem_cons, List.not_mem_nil, or_false] at hf
      rcases hf with rfl | rfl | rfl
      · decide
      · exact clean_toDigits (by decide) (by decide) _
      · exact clean_host r
    · obtain ⟨name, -, hvalue⟩ := List.mem_filterMap.mp hf
      obtain ⟨value, hheader, rfl⟩ := Option.map_eq_some_iff.mp hvalue
      exact clean_header hheader
  · rw [List.mem_singleton.mp hf]
    exact clean_peerText r

/-- The names that `relay` writes. -/
def fieldNames : List Str :=
  ["Connection", "Content-Length", "Host", "origin", "cookie", "content-type",
    "X-Forwarded-For"].map String.toList

/-- The names of the fields are among these, in this order. -/
lemma names_sublist (r : Request) (length : ℕ) :
    ((r.fields length).map Prod.fst).Sublist fieldNames := by
  have hmid : ∀ names : List Str, ((names.filterMap fun name =>
      (r.header name).map fun value => (name, value)).map Prod.fst).Sublist names := by
    intro names
    induction names with
    | nil => exact List.Sublist.slnil
    | cons name names ih =>
      cases hheader : r.header name with
      | none =>
        rw [List.filterMap_cons_none (by rw [hheader]; rfl)]
        exact ih.cons _
      | some value =>
        rw [List.filterMap_cons_some (by rw [hheader]; rfl)]
        exact ih.cons_cons _
  rw [fields, List.map_append, List.map_append]
  exact ((List.Sublist.refl (["Connection", "Content-Length", "Host"].map String.toList)).append
    (hmid ["origin".toList, "cookie".toList, "content-type".toList])).append
      (List.Sublist.refl ["X-Forwarded-For".toList])

/-- The optional fields, as the code writes them. -/
lemma flatMap_line (names : List Str) :
    (names.flatMap fun name => ((r.header name).map (line name)).getD []) =
      (names.filterMap fun name => (r.header name).map fun value => (name, value)).flatMap
        fun f => fieldLine f ++ crlf := by
  induction names with
  | nil => rfl
  | cons name names ih =>
    rw [List.flatMap_cons, ih]
    cases hheader : r.header name with
    | none =>
      rw [List.filterMap_cons_none (by rw [hheader]; rfl)]
      rfl
    | some value =>
      rw [List.filterMap_cons_some (by rw [hheader]; rfl), List.flatMap_cons]
      exact congrArg (· ++ _) ((clean_header hheader).line name)

/-- The head is its lines and an empty one. -/
lemma head_eq : r.head length = unlines crlf (r.requestLine :: (r.fields length).map fieldLine) := by
  have hconnection : "Connection: close".toList =
      fieldLine ("Connection".toList, "close".toList) := by decide
  have hlength : "Content-Length: ".toList ++ Nat.toDigits 10 length =
      fieldLine ("Content-Length".toList, Nat.toDigits 10 length) :=
    congrArg (· ++ _) (by decide : "Content-Length: ".toList = "Content-Length".toList ++ ": ".toList)
  have hhost := (clean_host r).line "Host".toList
  have hpeer := (clean_peerText r).line "X-Forwarded-For".toList
  simp only [head, hconnection, hhost, hpeer, unlines, fields, requestLine, List.map_cons,
    List.flatMap_cons, List.map_append, List.flatMap_append, List.flatMap_map, List.flatMap_nil,
    List.map_nil, ← flatMap_line, ← hlength, List.append_assoc, List.nil_append]

lemma name_mem (hf : f ∈ r.fields length) : f.1 ∈ fieldNames :=
  (names_sublist r length).subset (List.mem_map_of_mem hf)

/-- The lines of the head do not end before they end. -/
lemma clean_lines (hpath : Clean r.path) :
    ∀ l ∈ r.requestLine :: (r.fields length).map fieldLine, Clean l := by
  have hversion : Clean " HTTP/1.1".toList := by decide
  have hcolon : Clean ": ".toList := by decide
  have hmethod : Clean ['P', 'O', 'S', 'T', ' '] := by decide
  have hnames : ∀ name ∈ fieldNames, Clean name := by decide
  intro l hl
  rcases List.mem_cons.mp hl with rfl | hl
  · exact (hmethod.append hpath).append hversion
  · obtain ⟨f, hf, rfl⟩ := List.mem_map.mp hl
    exact ((hnames f.1 (name_mem hf)).append hcolon).append (clean_field hf)

lemma line_ne_nil : ∀ l ∈ r.requestLine :: (r.fields length).map fieldLine, l ≠ [] := by
  intro l hl
  rcases List.mem_cons.mp hl with rfl | hl
  · exact List.cons_ne_nil _ _
  · obtain ⟨f, -, rfl⟩ := List.mem_map.mp hl
    simp [fieldLine]

/-- The path is the middle of the request line. -/
lemma splitOn_requestLine (hpath : ' ' ∉ r.path) :
    r.requestLine.splitOn ' ' = ["POST".toList, r.path, "HTTP/1.1".toList] := by
  have hline : r.requestLine = [' '].intercalate ["POST".toList, r.path, "HTTP/1.1".toList] := by
    simp [requestLine, List.intercalate]
  rw [hline, List.splitOn_intercalate]
  · intro part hpart
    simp only [List.mem_cons, List.not_mem_nil, or_false] at hpart
    rcases hpart with rfl | rfl | rfl
    · decide
    · exact hpath
    · decide
  · exact List.cons_ne_nil _ _

lemma splitOnce_fieldLine (hf : f ∈ r.fields length) :
    splitOnce ':' (fieldLine f) = some (f.1, ' ' :: f.2) := by
  have hcolon : ∀ name ∈ fieldNames, ':' ∉ name := by decide
  exact splitOnce_eq_some_iff.mpr ⟨by simp [fieldLine], hcolon f.1 (name_mem hf)⟩

lemma nodup_fields (r : Request) (length : ℕ) :
    ((r.fields length).map fun f => asciiLower f.1).Nodup := by
  have hmap : (r.fields length).map (fun f => asciiLower f.1) =
      ((r.fields length).map Prod.fst).map asciiLower := by
    rw [List.map_map]
    rfl
  rw [hmap]
  exact ((names_sublist r length).map asciiLower).nodup (by decide)

/-- The length that is written is read again. -/
lemma declares_length (hlength : length < 2 ^ 64) :
    DeclaresLength (fieldLine ("Content-Length".toList, Nat.toDigits 10 length)) length := by
  have hdigits : ∀ c ∈ Nat.toDigits 10 length, Text.isWhite c = false := by
    intro c hc
    obtain ⟨d, hd, rfl⟩ := Numerals.mem_toDigits (by decide) hc
    have hall : ∀ d < 10, Text.isWhite (Nat.digitChar d) = false := by decide
    exact hall d hd
  refine ⟨"Content-Length".toList, ' ' :: Nat.toDigits 10 length, by simp [fieldLine], by decide,
    by decide, ?_⟩
  rw [Text.trim_cons_of_white (by decide), Text.trim_eq_self hdigits]
  exact Numerals.parseUnsigned_toDigits hlength

end Request

/-! ## The request that goes out -/

lemma utf8Bytes_unlines (lines : List Str) :
    utf8Bytes (unlines crlf lines) = unlines (utf8Bytes crlf) (lines.map utf8Bytes) := by
  induction lines with
  | nil => rfl
  | cons l lines ih =>
    rw [unlines_cons, List.map_cons, unlines_cons, ← ih]
    have happend := Utf8.encode_append
    exact (happend _ _).trans (congrArg (· ++ _) (happend _ _))

/-- The bytes of a line that does not end before it ends. -/
lemma Clean.bytes {lines : List Str} (hlines : ∀ l ∈ lines, l ≠ [] ∧ Clean l) :
    ∀ bytes ∈ lines.map utf8Bytes, bytes ≠ [] ∧ (13 : Byte) ∉ bytes := by
  intro bytes hbytes
  obtain ⟨l, hl, rfl⟩ := List.mem_map.mp hbytes
  obtain ⟨hne, hclean⟩ := hlines l hl
  refine ⟨fun hnil => hne ?_, fun hcr => ?_⟩
  · have hdecode : Utf8.decode [] = some l := Utf8.decode_eq_some_iff.mpr hnil
    exact Option.some.inj (hdecode.symm.trans (Utf8.decode_encode []))
  · obtain ⟨c, hc, hcode⟩ := Utf8.mem_of_mem_encode hcr (by decide)
    have heq : c = '\r' := Char.toNat_inj.mp hcode
    exact absurd (hclean c hc) (by rw [heq]; decide)

/-- The bytes of a text with no end of a line in it. -/
lemma reads_utf8 {lines : List Str} (hlines : ∀ l ∈ lines, l ≠ [] ∧ Clean l) (rest : List Byte) :
    Lines.Reads (utf8Bytes crlf) (utf8Bytes (unlines crlf lines) ++ rest)
      (lines.map utf8Bytes) rest := by
  rw [utf8Bytes_unlines]
  exact reads_unlines (rfl : (utf8Bytes crlf).head? = some 13) (Clean.bytes hlines)

/-- What `relay` writes for a request is one request. -/
lemma isRequest (r : Request) (body : List Byte) (hlength : body.length < 2 ^ 64)
    (hpath : ∀ c ∈ r.path, ' '.toNat < c.toNat) :
    IsRequest (utf8Bytes (r.head body.length) ++ body) r.path r.peerText body r.requestLine
      (r.fields body.length) := by
  have hclean : ∀ l ∈ r.requestLine :: (r.fields body.length).map fieldLine, Clean l := by
    refine Request.clean_lines fun c hc => ?_
    have hgt := hpath c hc
    simp only [splits, Bool.or_eq_false_iff, decide_eq_false_iff_not]
    refine ⟨⟨?_, ?_⟩, ?_⟩ <;> rintro rfl <;> exact absurd hgt (by decide)
  have hblank : ' ' ∉ r.path := fun h => absurd (hpath _ h) (lt_irrefl _)
  have hlower : ∀ name ∈ Request.fieldNames, asciiLower name ∈ forwardedFields := by decide
  have hreads := reads_utf8 (fun l hl => ⟨Request.line_ne_nil l hl, hclean l hl⟩) body
  rw [← Request.head_eq] at hreads
  refine ⟨fun lines rest => ⟨fun h => hreads.unique h, ?_⟩, hclean,
    Request.splitOn_requestLine hblank, fun f hf => Request.splitOnce_fieldLine hf,
    Request.nodup_fields r _, fun f hf => hlower f.1 (Request.name_mem hf), ?_, ?_⟩
  · rintro ⟨rfl, rfl⟩
    exact hreads
  · exact ⟨("Content-Length".toList, Nat.toDigits 10 body.length), by simp [Request.fields],
      Request.declares_length hlength⟩
  · refine ⟨("X-Forwarded-For".toList, r.peerText), by simp [Request.fields], ?_, rfl⟩
    change asciiLower "X-Forwarded-For".toList = "x-forwarded-for".toList
    decide

/-- A POST of an allowed path, without blanks and control characters in it, and a body within the
limit. -/
structure Request.Forwards (r : Request) (Allowed : Str → Prop) (maxBody : ℕ) (body : List Byte) :
    Prop where
  method : r.method = "POST".toList
  allowed : Allowed r.path
  visible : ∀ c ∈ r.path, ' '.toNat < c.toNat ∧ c.toNat ≠ 0x7F
  read : r.body = some body
  fits : body.length ≤ maxBody

/-- What is written for a request: one request with its path and body, if it is to be forwarded and
the target can be reached, and otherwise nothing.  A target may take only the start of it. -/
structure WritesRequest (r : Request) (target : Target) (Allowed : Str → Prop) (maxBody : ℕ)
    (written : List Byte) : Prop where
  refused : (¬∃ body, r.Forwards Allowed maxBody body) → written = []
  unreached : target.connects = false → written = []
  forwarded : ∀ body, r.Forwards Allowed maxBody body → target.connects = true →
    ∃ request requestLine fields, IsRequest request r.path r.peerText body requestLine fields ∧
      (target.takes = none → written = request) ∧
      ∀ n, target.takes = some n → written = request.take n

lemma accepted_eq_ok_iff {r : Request} {allowed : Str → Bool} {maxBody : ℕ} {body : List Byte} :
    r.accepted allowed maxBody = .ok body ↔
      r.Forwards (fun path => allowed path = true) maxBody body := by
  constructor
  · intro h
    unfold Request.accepted at h
    split at h
    · exact absurd h (by simp)
    · next hmethod =>
      split at h
      · exact absurd h (by simp)
      · next hpath =>
        rw [Bool.or_eq_true, not_or, Bool.not_eq_true', Bool.not_eq_false, List.any_eq_true] at hpath
        obtain ⟨hallowed, hchars⟩ := hpath
        split at h
        · next body' hbody =>
          split at h
          · next hle =>
            obtain rfl := Except.ok.inj h
            refine ⟨not_not.mp hmethod, hallowed, fun c hc => ⟨?_, fun hdel => ?_⟩, hbody, hle⟩
            · by_contra hlow
              exact hchars ⟨c, hc, Bool.or_eq_true_iff.mpr (.inl (decide_eq_true (not_lt.mp hlow)))⟩
            · exact hchars ⟨c, hc, Bool.or_eq_true_iff.mpr (.inr (decide_eq_true hdel))⟩
          · exact absurd h (by simp)
        · exact absurd h (by simp)
  · rintro ⟨hmethod, hallowed, hvisible, hbody, hle⟩
    have hpath : (!allowed r.path || r.path.any fun c => c.toNat ≤ ' '.toNat || c.toNat = 0x7F) =
        false := by
      rw [hallowed, Bool.not_true, Bool.false_or, List.any_eq_false]
      intro c hc hbad
      rcases (Bool.or_eq_true _ _).mp hbad with hlow | hdel
      · exact absurd (hvisible c hc).1 (not_lt.mpr (of_decide_eq_true hlow))
      · exact (hvisible c hc).2 (of_decide_eq_true hdel)
    rw [Request.accepted, if_neg (not_not.mpr hmethod), hpath, hbody]
    exact if_pos hle

lemma relay_writes (build : Build) (r : Request) (target : Target) (allowed : Str → Bool)
    (maxBody : ℕ) (hmax : maxBody < 2 ^ 64) (who : String) :
    WritesRequest r target (fun path => allowed path = true) maxBody
      (relay build r target allowed maxBody who).1 := by
  unfold relay
  cases haccepted : r.accepted allowed maxBody with
  | error response =>
    refine ⟨fun _ => rfl, fun _ => rfl, fun body hforwards => ?_⟩
    exact absurd (haccepted.symm.trans (accepted_eq_ok_iff.mpr hforwards)) (by simp)
  | ok body =>
    have hforwards := accepted_eq_ok_iff.mp haccepted
    simp only [exchange]
    cases hconnects : target.connects with
    | false =>
      exact ⟨fun _ => rfl, fun _ => rfl,
        fun _ _ htrue => absurd (hconnects.symm.trans htrue) (by simp)⟩
    | true =>
      refine ⟨fun hnone => absurd ⟨body, hforwards⟩ hnone,
        fun hfalse => absurd (hconnects.symm.trans hfalse) (by simp), ?_⟩
      intro body' hforwards' _
      obtain rfl := Option.some.inj (hforwards.read.symm.trans hforwards'.read)
      have hrequest := isRequest r body (hforwards.fits.trans_lt hmax)
        fun c hc => (hforwards.visible c hc).1
      refine ⟨_, _, _, hrequest, fun htakes => ?_, fun n htakes => ?_⟩
      · rw [htakes]
        rfl
      · rw [htakes]
        rfl

/-- What is written at all is written for a request that is to be forwarded. -/
lemma WritesRequest.forwards {r : Request} {target : Target} {Allowed : Str → Prop} {maxBody : ℕ}
    {written : List Byte} (h : WritesRequest r target Allowed maxBody written) (hne : written ≠ []) :
    ∃ body, r.Forwards Allowed maxBody body := by
  by_contra hnone
  exact hne (h.refused hnone)

/-- **The forwarded request is one well-formed request**, whatever the client sent and whatever
the target does. -/
theorem forwarded_is_request (build : Build) (r : Request) (target : Target) :
    (∀ start port, WritesRequest r target (start.1 <+: ·) maxRequestBody
      (forward build (some (start, port)) r target).1) ∧
    (∀ port, WritesRequest r target (· ∈ webServerRoutes) maxWebServerRequestBody
      (forwardWebServer build (some port) r target).1) ∧
    (forward build none r target).1 = [] ∧ (forwardWebServer build none r target).1 = [] := by
  refine ⟨fun start port => ?_, fun port => ?_, rfl, rfl⟩
  · have h := relay_writes build r target (start.1.isPrefixOf ·) maxRequestBody
      (by decide) "The app"
    simp only [List.isPrefixOf_iff_prefix] at h
    exact h
  · have h := relay_writes build r target (· ∈ webServerRoutes)
      maxWebServerRequestBody (by decide) "The web server"
    simp only [decide_eq_true_eq] at h
    exact h

/-! ## A sample -/

/-- The prefix `/_app/`. -/
def appPrefix : Prefix := ⟨"/_app/".toList, by decide⟩

/-- A service that takes everything. -/
def openTarget : Target := ⟨true, none, [], .closed⟩

def postTo (path : String) : Request :=
  { method := "POST".toList
    peer := none
    pathAndQuery := some path.toList
    headers := []
    body := some [] }

/-- A request with some headers, which names another address. -/
def postedForm : Request where
  method := "POST".toList
  peer := some (.v4 ⟨#[127, 0, 0, 1], rfl⟩)
  pathAndQuery := some "/_app/a?b=1".toList
  headers := [("host".toList, utf8Bytes "h".toList), ("cookie".toList, utf8Bytes "k=v".toList),
    ("x-forwarded-for".toList, utf8Bytes "8.8.8.8".toList), ("accept".toList, utf8Bytes "*".toList)]
  body := some [1, 13, 10]

def postedHead : Str :=
  ("POST /_app/a?b=1 HTTP/1.1\r\nConnection: close\r\nContent-Length: 3\r\nHost: h\r\n" ++
    "cookie: k=v\r\nX-Forwarded-For: 127.0.0.1\r\n\r\n").toList

lemma forwards_postedForm :
    postedForm.Forwards (appPrefix.1 <+: ·) maxRequestBody [1, 13, 10] where
  method := rfl
  allowed := by decide
  visible := by simp [postedForm, Request.path]
  read := rfl
  fits := by decide

theorem forwarded_is_request_sample : ∃ request requestLine fields,
    IsRequest request "/_app/a?b=1".toList "127.0.0.1".toList [1, 13, 10] requestLine fields ∧
    (forward .release (some (appPrefix, [])) postedForm openTarget).1 = request ∧
    request = utf8Bytes postedHead ++ [1, 13, 10] := by
  obtain ⟨request, requestLine, fields, hrequest, hwritten, -⟩ :=
    ((forwarded_is_request .release postedForm openTarget).1 appPrefix []).forwarded _
      forwards_postedForm rfl
  have hbytes : (forward .release (some (appPrefix, [])) postedForm openTarget).1 =
      utf8Bytes postedHead ++ [1, 13, 10] := by decide +kernel
  have hpeer : postedForm.peerText = "127.0.0.1".toList := by decide
  rw [hpeer] at hrequest
  exact ⟨request, requestLine, fields, hrequest, hwritten rfl, (hwritten rfl).symm.trans hbytes⟩

end AppProxy
end RemoteClient

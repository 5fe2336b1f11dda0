/-
# Two tests for gzip

Two functions read `Accept-Encoding`.  `acceptsEncoding` goes through the items: the first one
that names the coding decides, or else the last `*` (`acceptsAmong_eq`), and what it accepts
the header admits.  `acceptsGzip` only looks how an item begins.  So a body may be compressed
against the header, and every coding is admitted exactly for those headers on which the two
agree (`codings_admitted_iff`).
-/
import RemoteClient.Router

namespace RemoteClient

open Http

/-! ## The items of a header -/

/-- The items of a header. -/
def acceptItems : Option Str → List Str
  | none => []
  | some value => value.splitOn ','

/-- An item names a coding. -/
def ItemNames (coding item : Str) : Prop := eqIgnoreAsciiCase (acceptItem item).1 coding = true

/-- An item is the wildcard. -/
def IsWildcard (item : Str) : Prop := (acceptItem item).1 = ['*']

/-- What an item stands for may be sent. -/
def Acceptable (item : Str) : Prop := (acceptItem item).2 = true

instance (coding : Str) : DecidablePred (ItemNames coding) := fun _ => inferInstanceAs (Decidable (_ = _))

instance : DecidablePred IsWildcard := fun _ => inferInstanceAs (Decidable (_ = _))

instance : DecidablePred Acceptable := fun _ => inferInstanceAs (Decidable (_ = _))

/-- A header admits a coding that it lists, or does not list beside an acceptable `*`. -/
def Admits (value : Option Str) (coding : Str) : Prop :=
  (∃ item ∈ acceptItems value, ItemNames coding item ∧ Acceptable item) ∨
    (∀ item ∈ acceptItems value, ¬ItemNames coding item) ∧
      ∃ item ∈ acceptItems value, IsWildcard item ∧ Acceptable item

instance (value : Option Str) (coding : Str) : Decidable (Admits value coding) :=
  inferInstanceAs (Decidable (_ ∨ _))

/-- Of several items for the same coding the first one counts, and of several wildcards the
last one. -/
def Prefers (value : Option Str) (coding : Str) : Prop :=
  match (acceptItems value).find? (ItemNames coding ·) with
  | some item => Acceptable item
  | none => ∃ item ∈ ((acceptItems value).filter (IsWildcard ·)).getLast?, Acceptable item

/-! ## What the two tests say -/

lemma acceptsAmong_eq (coding : Str) (wildcard : Option Bool) (items : List Str) :
    acceptsAmong coding wildcard items =
      match items.find? (ItemNames coding ·) with
      | some item => (acceptItem item).2
      | none => (((items.filter (IsWildcard ·)).getLast?.map fun item =>
          (acceptItem item).2).or wildcard).getD false := by
  induction items generalizing wildcard with
  | nil => rfl
  | cons item items ih =>
    rw [acceptsAmong]
    by_cases hnames : ItemNames coding item
    · rw [List.find?_cons_of_pos (p := (ItemNames coding ·)) (decide_eq_true hnames)]
      exact if_pos hnames
    · rw [List.find?_cons_of_neg (p := (ItemNames coding ·)) (by simpa using hnames)]
      refine (if_neg hnames).trans ((ih _).trans ?_)
      cases items.find? (ItemNames coding ·) with
      | some found => rfl
      | none =>
        change (Option.or _ (if IsWildcard item then _ else _)).getD false = _
        by_cases hwild : IsWildcard item
        · rw [List.filter_cons_of_pos (p := (IsWildcard ·)) (decide_eq_true hwild),
            List.getLast?_cons, if_pos hwild]
          cases (items.filter (IsWildcard ·)).getLast? <;> rfl
        · rw [List.filter_cons_of_neg (p := (IsWildcard ·)) (by simpa using hwild), if_neg hwild]

lemma acceptsEncoding_iff (headers : HeaderMap) (coding : Str) :
    acceptsEncoding headers coding = true ↔ Prefers headers.acceptEncoding coding := by
  have hitems : acceptsEncoding headers coding =
      acceptsAmong coding none (acceptItems headers.acceptEncoding) := by
    unfold acceptsEncoding acceptItems
    cases headers.acceptEncoding <;> rfl
  rw [hitems, acceptsAmong_eq, Prefers]
  cases (acceptItems headers.acceptEncoding).find? (ItemNames coding ·) with
  | some item => exact Iff.rfl
  | none =>
    cases ((acceptItems headers.acceptEncoding).filter (IsWildcard ·)).getLast? with
    | some item => simp [Acceptable]
    | none => simp

/-- The first item or the last wildcard is among the items. -/
lemma Prefers.admits {value : Option Str} {coding : Str} (h : Prefers value coding) :
    Admits value coding := by
  unfold Prefers at h
  split at h
  · next item hfind =>
    have hnames : ItemNames coding item :=
      of_decide_eq_true (List.find?_some (p := (ItemNames coding ·)) hfind)
    exact .inl ⟨item, List.mem_of_find?_eq_some hfind, hnames, h⟩
  · next hfind =>
    obtain ⟨item, hlast, hacceptable⟩ := h
    obtain ⟨hmem, hwild⟩ := List.mem_filter.mp (List.mem_of_getLast? hlast)
    refine .inr ⟨fun item hitem hnames => ?_, item, hmem, of_decide_eq_true hwild, hacceptable⟩
    exact List.find?_eq_none.mp hfind item hitem (decide_eq_true hnames)

lemma acceptsGzip_iff (headers : HeaderMap) :
    acceptsGzip headers = true ↔
      ∃ item ∈ acceptItems headers.acceptEncoding, "gzip".toList <+: trim item := by
  unfold acceptsGzip acceptItems
  cases headers.acceptEncoding with
  | none => simp
  | some value => simp only [List.any_eq_true, List.isPrefixOf_iff_prefix]

/-! ## Codings that are admitted -/

/-- **Every coding is admitted exactly where the two tests agree.**  For one value of
`Accept-Encoding`: on every server every response in a coding is in one that the value admits,
and the two tests agree on gzip, if and only if an item begins with `gzip` just when the first
item that names gzip is acceptable, or there is none and the last wildcard is. -/
theorem codings_admitted_iff (value : Option Str) :
    (∀ (c : Client) (route : Route) (resp : Response) (coding : Str),
      route.headers.acceptEncoding = value → (c.route route).Returns (some resp) →
      resp.contentEncoding = some coding → Admits value coding) ∧
    (∀ headers : HeaderMap, headers.acceptEncoding = value →
      acceptsGzip headers = acceptsEncoding headers "gzip".toList) ↔
    ((∃ item ∈ acceptItems value, "gzip".toList <+: trim item) ↔
      Prefers value "gzip".toList) := by
  constructor
  · rintro ⟨-, hagree⟩
    have hagree := hagree { acceptEncoding := value } rfl
    rw [← acceptsGzip_iff { acceptEncoding := value }, hagree, acceptsEncoding_iff]
  · intro hagree
    refine ⟨fun c route resp coding hvalue hroute hcoding => ?_, fun headers hvalue => ?_⟩
    · obtain ⟨haccepts | ⟨rfl, hgzip⟩, -⟩ := route_coded c hroute coding hcoding
      · rw [acceptsEncoding_iff, hvalue] at haccepts
        exact haccepts.admits
      · rw [acceptsGzip_iff, hvalue, hagree] at hgzip
        exact hgzip.admits
    · rw [Bool.eq_iff_iff, acceptsGzip_iff, acceptsEncoding_iff, hvalue]
      exact hagree

/-- A server whose landing page is worth compressing. -/
def landingClient : Client :=
  { sampleClient with platform := { sampleClient.platform with statusPage := sampleContent } }

/-- A request for the landing page that refuses gzip. -/
def refusingRequest : Request where
  loopback := false
  headers := { acceptEncoding := some "gzip;q=0".toList }
  endpoint := .path .get ['/']

set_option maxRecDepth 8000 in
lemma landing_eval : (landingClient.handle refusingRequest).eval (sampleAnswer 0) = some {
    status := 200
    contentType := some "text/html; charset=utf-8".toList
    cacheControl := some "public, max-age=60".toList
    vary := some "Accept-Encoding".toList
    contentEncoding := some "gzip".toList
    body := [0] } := by
  rfl

/-- It is answered in gzip. -/
theorem refused_coding_is_sent : ∃ resp,
    (landingClient.route (.handler refusingRequest)).Returns (some resp) ∧
    resp.contentEncoding = some "gzip".toList ∧
    ¬Admits refusingRequest.headers.acceptEncoding "gzip".toList :=
  ⟨_, landing_eval ▸ Prog.returns_eval (sampleAnswer 0) _, rfl, by decide⟩

end RemoteClient

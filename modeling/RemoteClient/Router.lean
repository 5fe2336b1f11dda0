/-
# What leaves the router

Whatever answers a request, one layer around all routes adds the headers that let a page of
another origin read it.  A body that was chosen by `Accept-Encoding` comes with a `Vary` that
says so (`Negotiated.vary`), on every route; but the layer writes a `Vary` of its own over it
when the origin is an allowed one, and only then (`vary_kept_iff`).
-/
import RemoteClient.Etags

namespace RemoteClient

open Http

/-! ## Routes -/

/-- What a request is routed to. -/
inductive Route where
  | handler (r : Request)
  /-- `health`, `cache_stats` and `missing_files`, with the JSON they report. -/
  | report (headers : HeaderMap) (body : List Byte)
  /-- What another server answered, of which no coding and no `Vary` is passed on, and what the
  framework answers by itself. -/
  | forwarded (headers : HeaderMap) (status : ℕ) (contentType cacheControl : Option Str)
      (body : List Byte)

def Route.headers : Route → HeaderMap
  | handler r => r.headers
  | report headers _ => headers
  | forwarded headers _ _ _ _ => headers

/-- The answer of a route. -/
def Client.route (c : Client) : Route → Work (Option Response)
  | .handler r => c.handle r
  | .report headers body => return some (c.jsonResponse headers body (some "no-store".toList))
  | .forwarded _ status contentType cacheControl body =>
    return some {
      status := status
      contentType := contentType
      cacheControl := cacheControl
      body := body }

/-! ## Origins -/

/-- A response with the headers for pages of other origins. -/
structure Outgoing extends Response where
  allowOrigin : Option Str := none
  allowCredentials : Bool := false
  allowMethods : Option Str := none
  allowHeaders : Option Str := none
deriving DecidableEq, Repr

structure Cors where
  allowedOrigins : List Str
deriving DecidableEq, Repr

namespace Cors

def defaultOrigins : List Str := [
  "http://localhost:8000", "http://127.0.0.1:8000", "http://localhost:8080",
  "http://127.0.0.1:8080", "http://localhost:3338", "http://127.0.0.1:3338"].map String.toList

/-- The default origins, and the page's own before them. -/
def new : Option Str → Cors
  | none => ⟨defaultOrigins⟩
  | some url =>
    let url := (url.reverse.dropWhile fun ch => ch = '/').reverse
    ⟨if url ∈ defaultOrigins then defaultOrigins else url :: defaultOrigins⟩

variable (cors : Cors)

def originAllowed (origin : Str) : Bool := cors.allowedOrigins.any fun o => o = origin

/-- Let a page of an allowed origin read a response. -/
def apply (origin : Option Str) (response : Outgoing) : Outgoing :=
  match origin with
  | none => response
  | some origin =>
    if !cors.originAllowed origin then response
    else { response with
      allowOrigin := some origin
      allowCredentials := true
      vary := some "Origin".toList }

def preflight (origin : Option Str) : Outgoing :=
  cors.apply origin {
    status := 204
    body := []
    allowMethods := some "GET, POST, PUT, PATCH, DELETE, OPTIONS, HEAD".toList
    allowHeaders := some ['*'] }

end Cors

/-- The layer around all routes.  No response means that a handler panicked. -/
def Client.corsMiddleware (c : Client) (cors : Cors) (origin : Option Str) (isOptions : Bool)
    (route : Route) : Work (Option Outgoing) :=
  if isOptions then return some (cors.preflight origin)
  else do
    let response ← c.route route
    return response.map fun response => cors.apply origin { response with }

/-! ## Codings are accepted and announced -/

section

variable {c : Client}

/-- Nothing, or a response whose coding was chosen by what the client accepts. -/
abbrev AnswersCoded (headers : HeaderMap) (p : Work (Option Response)) : Prop :=
  p.All (fun _ => True) fun r => ∀ resp, r = some resp → Coded headers resp

lemma answersCoded_some {headers : HeaderMap} {p : Work Response}
    (h : p.All (fun _ => True) (Coded headers)) : AnswersCoded headers (some <$> p) :=
  h.bind fun _ hresp _ heq => Option.some.inj heq ▸ hresp

lemma serveAsset_coded (headers : HeaderMap) (path : Str) (file : CachedFile) :
    (c.serveAsset headers path file).All (fun _ => True) fun resp => Coded headers resp ∧
      resp.vary = varyOn (negotiatesCoding path file.data.length c.cfg.enableCompression) := by
  -- Every end of the handler is an asset response, plain or in the coding that was negotiated.
  have hasset : ∀ body etag coding,
      (∀ x, coding = some x → assetCoding headers path file.data.length
        c.cfg.enableCompression = some x) →
      Coded headers (assetResponse headers path body etag
        (negotiatesCoding path file.data.length c.cfg.enableCompression) coding) ∧
      (assetResponse headers path body etag
        (negotiatesCoding path file.data.length c.cfg.enableCompression) coding).vary =
          varyOn (negotiatesCoding path file.data.length c.cfg.enableCompression) := by
    intro body etag coding hcoding
    simp only [assetResponse]
    split
    · exact ⟨coded_of_none rfl, rfl⟩
    · refine ⟨fun name hname => ?_, rfl⟩
      obtain ⟨x, rfl, rfl⟩ := Option.map_eq_some_iff.mp hname
      have hchosen := hcoding x rfl
      unfold assetCoding at hchosen
      split at hchosen
      · exact absurd hchosen (by simp)
      · next hnegotiates =>
        rw [Bool.not_eq_true', Bool.not_eq_false] at hnegotiates
        have haccepts : acceptsEncoding headers x.name = true :=
          List.find?_some (p := fun y : Coding => acceptsEncoding headers y.name) hchosen
        exact ⟨.inl haccepts, congrArg varyOn hnegotiates⟩
  simp only [Client.serveAsset]
  split
  · exact hasset _ _ none fun x heq => absurd heq (by simp)
  · next coding hcoding =>
    have hsome : ∀ x, some coding = some x → assetCoding headers path file.data.length
        c.cfg.enableCompression = some x := fun x heq => heq ▸ hcoding
    split
    · exact hasset _ _ _ hsome
    · refine (Prog.all_true _).bind fun made _ => ?_
      cases made with
      | some bytes => exact hasset _ _ _ hsome
      | none => exact hasset _ _ none fun x heq => absurd heq (by simp)

lemma serveFile_coded (headers : HeaderMap) (path : Str) (gameData : Bool) :
    (c.serveFile headers path gameData).All (fun _ => True) (Coded headers) := by
  have hfallback : (c.serveFallback headers path gameData).All (fun _ => True) (Coded headers) := by
    unfold Client.serveFallback
    split
    · exact (serveRoot_looks headers served_indexPage).mono (fun _ _ => trivial)
        fun _ hresp => hresp.coded
    · refine (Prog.all_true _).bind fun file _ => ?_
      cases file with
      | some file => exact (serveAsset_coded headers path file).mono (fun _ h => h) fun _ h => h.1
      | none => exact coded_of_none rfl
  unfold Client.serveFile
  split
  · refine ((serveStatic_looks headers serves_static).mono (fun _ _ => trivial)
      fun _ h => h).bind fun response hresponse => ?_
    cases response with
    | some response => exact (hresponse response rfl).coded
    | none => exact hfallback
  · exact hfallback

lemma serveGet_coded (headers : HeaderMap) (path : Str) (gameData : Bool) :
    (c.serveGet headers path gameData).All (fun _ => True) (Coded headers) := by
  unfold Client.serveGet
  split
  · exact coded_of_none rfl
  · split
    · exact serveFile_coded headers path gameData
    · refine ⟨trivial, fun bytes => ?_⟩
      cases bytes with
      | some bytes => exact coded_of_none rfl
      | none => exact serveFile_coded headers path gameData

lemma handle_coded (r : Request) : AnswersCoded r.headers (c.handle r) := by
  -- Lists and searches answer in two ways, with an error in the clear or with a compressed body.
  have hlist : ∀ gameData, AnswersCoded r.headers
      (.ret (c.serveListFiles r.headers gameData)) := by
    intro gameData resp heq
    unfold Client.serveListFiles at heq
    split at heq
    · rw [← Option.some.inj heq]
      exact coded_compress _ rfl _
    · exact absurd heq (by simp)
  have hsearch : ∀ body gameData, AnswersCoded r.headers
      (.ret (c.serveSearch r.headers body gameData)) := by
    intro body gameData resp heq
    simp only [Client.serveSearch] at heq
    split at heq
    · rw [← Option.some.inj heq]
      exact coded_of_none rfl
    · split at heq
      · rw [← Option.some.inj heq]
        exact coded_of_none rfl
      · split at heq
        · exact absurd heq (by simp)
        · rw [← Option.some.inj heq]
          exact coded_compress _ rfl _
  unfold Client.handle
  split
  · exact hlist _
  · exact hsearch _ _
  · refine answersCoded_some ?_
    simp only [Client.serveBatch]
    split
    · exact coded_of_none rfl
    · exact (Prog.all_true _).bind fun _ _ => coded_compress _ rfl _
  · next method rawPath _ =>
    refine answersCoded_some ?_
    unfold Client.servePath
    split
    · exact coded_of_none rfl
    · refine (serveGet_coded _ _ _).bind fun resp hresp => ?_
      change Coded r.headers (Client.finish _ resp)
      -- A HEAD response loses its body, and keeps the coding it announces.
      unfold Client.finish
      split
      · exact hresp
      · exact hresp

/-- **Every route answers in a coding the client accepts**, as one of the two tests sees it, and
announces it. -/
theorem route_coded (c : Client) {route : Route} {resp : Response}
    (h : (c.route route).Returns (some resp)) : Coded route.headers resp := by
  cases route with
  | handler r => exact (handle_coded r).returns h resp rfl
  | report headers body =>
    have heq : some (c.jsonResponse headers body _) = some resp := h
    rw [← Option.some.inj heq]
    exact coded_compress _ rfl _
  | forwarded headers status contentType cacheControl body =>
    have heq : some (_ : Response) = some resp := h
    rw [← Option.some.inj heq]
    exact coded_of_none rfl

/-! ## Vary -/

/-- The body of a response was chosen by `Accept-Encoding`: it is in a coding, or it is that of
an asset worth compressing, or of a static file with a precompressed one beside it.  So are the
headers of such a response to a HEAD. -/
inductive Negotiated (c : Client) (headers : HeaderMap) : Response → Prop
  | coded {resp : Response} (h : resp.contentEncoding.isSome = true) : Negotiated c headers resp
  | asset {path : Str} {file : CachedFile} {resp : Response}
      (h : (c.serveAsset headers path file).Returns resp)
      (hnegotiates :
        negotiatesCoding path file.data.length c.cfg.enableCompression = true) :
      Negotiated c headers resp
  | static {path : PathBuf} {metadata : Metadata} {siblings : List Client.Sibling}
      {resp : Response}
      (h : (c.staticAnswer headers path metadata siblings).Returns (some resp))
      (hsiblings : siblings ≠ []) : Negotiated c headers resp
  | head {resp : Response} (h : Negotiated c headers resp) :
      Negotiated c headers (Client.finish true resp)

lemma vary_compress (headers : HeaderMap) {resp : Response} (h : resp.vary = varyOn true)
    (body : List Byte) : (c.compress headers resp body).vary = varyOn true := by
  simp only [Client.compress, maybeCompress]
  split
  · rfl
  · exact h

/-- A static file with precompressed ones beside it is announced to vary. -/
lemma staticAnswer_vary (headers : HeaderMap) (path : PathBuf) (metadata : Metadata)
    {siblings : List Client.Sibling} (hsiblings : siblings ≠ []) :
    (c.staticAnswer headers path metadata siblings).All (fun _ => True)
      fun r => ∀ resp, r = some resp → resp.vary = varyOn true := by
  have hvary : varyOn (!siblings.isEmpty) = varyOn true := by
    rw [List.isEmpty_eq_false_iff.mpr hsiblings]
    rfl
  simp only [Client.staticAnswer]
  split
  · intro resp heq
    rw [← Option.some.inj heq]
    exact hvary
  · split
    · refine ⟨trivial, fun content => ?_⟩
      cases content with
      | none => exact fun resp heq => absurd heq (by simp)
      | some content =>
        intro resp heq
        rw [← Option.some.inj heq]
        exact hvary
    · refine ⟨trivial, fun content => ?_⟩
      cases content with
      | none => exact fun resp heq => absurd heq (by simp)
      | some content =>
        intro resp heq
        rw [← Option.some.inj heq]
        exact vary_compress headers hvary content

lemma Negotiated.vary_or_coded {headers : HeaderMap} {resp : Response}
    (h : Negotiated c headers resp) :
    resp.vary = varyOn true ∨ resp.contentEncoding.isSome = true := by
  induction h with
  | coded h => exact .inr h
  | asset h hnegotiates =>
    left
    rw [((serveAsset_coded _ _ _).returns h).2, hnegotiates]
  | static h hsiblings => exact .inl ((staticAnswer_vary _ _ _ hsiblings).returns h _ rfl)
  | head h ih => exact ih

/-- A negotiated response is announced to vary when it comes from its route. -/
lemma Negotiated.vary {route : Route} {resp : Response}
    (h : Negotiated c route.headers resp) (hroute : (c.route route).Returns (some resp)) :
    resp.vary = varyOn true := by
  rcases h.vary_or_coded with hvary | hcoded
  · exact hvary
  · obtain ⟨coding, hcoding⟩ := Option.isSome_iff_exists.mp hcoded
    exact (route_coded c hroute coding hcoding).2

end

/-- `Vary` lists a header. -/
def Outgoing.VariesOn (out : Outgoing) (header : Str) : Prop :=
  ∃ item ∈ (out.vary.getD []).splitOn ',', asciiLower (trim item) = asciiLower header

instance (out : Outgoing) (header : Str) : Decidable (out.VariesOn header) :=
  inferInstanceAs (Decidable (∃ item ∈ _, _))

/-- **Vary survives exactly for the other origins.**  A response that was chosen by
`Accept-Encoding` still says so when it leaves the layer, if and only if the request came from
no allowed origin. -/
theorem vary_kept_iff (c : Client) (cors : Cors) (origin : Option Str) {route : Route}
    {resp : Response} (h : (c.route route).Returns (some resp))
    (hnegotiated : Negotiated c route.headers resp) :
    (c.corsMiddleware cors origin false route).Returns
      (some (cors.apply origin { toResponse := resp })) ∧
    ((cors.apply origin { toResponse := resp }).VariesOn "Accept-Encoding".toList ↔
      ∀ o, origin = some o → cors.originAllowed o = false) := by
  have hvary := hnegotiated.vary h
  refine ⟨Prog.returns_bind.mpr ⟨_, h, rfl⟩, ?_⟩
  cases origin with
  | none =>
    refine ⟨fun _ o heq => absurd heq (by simp), fun _ => ?_⟩
    have hkept : (cors.apply none { toResponse := resp }).vary = varyOn true := hvary
    rw [Outgoing.VariesOn, hkept]
    decide
  | some o =>
    by_cases hallowed : cors.originAllowed o = true
    · have hlost : (cors.apply (some o) { toResponse := resp }).vary = some "Origin".toList := by
        simp only [Cors.apply, hallowed]
        rfl
      rw [Outgoing.VariesOn, hlost]
      refine ⟨fun hlists => absurd hlists (by decide), fun hnone => ?_⟩
      exact absurd ((hnone o rfl).symm.trans hallowed) (by simp)
    · rw [Bool.not_eq_true] at hallowed
      have hkept : (cors.apply (some o) { toResponse := resp }).vary = varyOn true := by
        simp only [Cors.apply, hallowed]
        exact hvary
      rw [Outgoing.VariesOn, hkept]
      refine ⟨fun _ o' heq => Option.some.inj heq ▸ hallowed, fun _ => by decide⟩

lemma sample_returns : (sampleClient.route (.handler sampleRequest)).Returns (some sampleResponse) :=
  sample_eval 0 ▸ Prog.returns_eval (sampleAnswer 0) _

/-- A request from the page's own server keeps it. -/
theorem vary_kept_iff_sample :
    ((Cors.new none).apply none { toResponse := sampleResponse }).VariesOn
      "Accept-Encoding".toList :=
  (vary_kept_iff sampleClient (Cors.new none) none sample_returns (.coded rfl)).2.mpr
    fun _ heq => absurd heq (by simp)

/-- A page of an allowed origin gets a gzip body that does not say so. -/
theorem vary_is_lost : ∃ route resp out, (sampleClient.route route).Returns (some resp) ∧
    Negotiated sampleClient route.headers resp ∧
    (sampleClient.corsMiddleware (Cors.new none) (some "http://localhost:8000".toList) false
      route).Returns (some out) ∧
    out.contentEncoding = some "gzip".toList ∧ ¬out.VariesOn "Accept-Encoding".toList :=
  ⟨.handler sampleRequest, sampleResponse, _, sample_returns, .coded rfl,
    Prog.returns_bind.mpr ⟨_, sample_returns, rfl⟩, rfl, by decide⟩

end RemoteClient

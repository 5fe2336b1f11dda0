/-
# What the server itself adds to the game

`Served` is the part of the disk that everyone may see: the server root without its logs, the
override directory and the static tree.  The programs that serve static files and the landing
page look only there, and what they answer is under a weak tag or none.
-/
import RemoteClient.Safety

namespace RemoteClient

open Exec Http

/-! ## The served part of the disk -/

/-- The server root without its logs, the override directory, and the static tree with the
precompressed files beside it. -/
def Config.Served (cfg : Config) (path : PathBuf) : Prop :=
  (cfg.root <+: path ∧ ¬cfg.logsDir <+: path) ∨
  (∃ dir, cfg.dataOverridePath = some dir ∧ dir <+: path) ∨
  cfg.robrowserPath <+: path ∨
  ∃ p ∈ Client.precompressed, path = pushSuffix cfg.robrowserPath ('.' :: p.2)

namespace Config.Served

variable {cfg : Config} {path : PathBuf}

lemma of_root {parts : List Str} (h : parts.head? ≠ some "logs".toList) :
    cfg.Served (cfg.root ++ parts) := by
  refine .inl ⟨List.prefix_append _ _, fun hlogs => h ?_⟩
  obtain ⟨rest, hrest⟩ := (List.prefix_append_right_inj _).mp hlogs
  rw [← hrest]
  rfl

/-- Public paths are served from the root. -/
lemma of_public {rel : Str} (hpublic : publicAssetPath rel = true)
    (h : safeJoin cfg.root rel = some path) : cfg.Served path := by
  obtain ⟨parts, rfl, hparts⟩ := safeJoin_public hpublic h
  exact of_root fun hhead => (hparts.first _ hhead).1 (by decide)

lemma of_override {dir : PathBuf} {rel : Str} (hdir : cfg.dataOverridePath = some dir)
    (h : safeJoin dir rel = some path) : cfg.Served path :=
  .inr (.inl ⟨dir, hdir, safeJoin_prefix h⟩)

lemma of_static (h : cfg.robrowserPath <+: path) : cfg.Served path := .inr (.inr (.inl h))

lemma of_sibling (h : cfg.robrowserPath <+: path) {p : Str × Str} (hp : p ∈ Client.precompressed) :
    cfg.Served (pushSuffix path ('.' :: p.2)) := by
  obtain ⟨rest, rfl⟩ := h
  rcases List.eq_nil_or_concat rest with rfl | ⟨init, last, rfl⟩
  · rw [List.append_nil]
    exact .inr (.inr (.inr ⟨p, hp, rfl⟩))
  · refine of_static ?_
    rw [List.concat_eq_append, ← List.append_assoc, pushSuffix, List.getLast?_concat,
      List.dropLast_concat]
    exact (List.prefix_append _ init).trans (List.prefix_append _ _)

end Config.Served

/-! ## Programs that only look -/

/-- An action that looks at the disk within a part of it. -/
def LooksAt (served : PathBuf → Prop) : Action → Prop
  | .isFile path => served path
  | .read path => served path
  | .metadata path => served path
  | _ => False

section

variable {c : Client} {frozen : PathBuf → Prop} {T : FileSystem} (hguarded : Guarded c frozen)
  {s : Server}

lemma LooksAt.allowed {served : PathBuf → Prop} {a : Action} (h : LooksAt served a) :
    Allowed c s a := by
  cases a with
  | isFile | read | metadata => trivial
  | _ => exact absurd h (by simp [LooksAt])

/-- A program that only looks at the disk keeps the contract. -/
lemma safe_looks {α : Type} {served : PathBuf → Prop} {P : α → Prop} {p : Work α}
    (h : p.All (LooksAt served) P) : (contract hguarded T).Safe (fun a _ => P a) p s := by
  refine Contract.Safe.of_all (fun a ha s hsane => ⟨ha.allowed, fun r s' hperform => ?_⟩) h
  obtain ⟨hsane', hgrown, -⟩ := perform_spec hsane ha.allowed hperform
  exact ⟨hsane', hgrown⟩

end

/-! ## Tags -/

/-- A strong entity tag: a text between quotes, with no `W/` before it. -/
def Strong (tag : Str) : Prop := tag.head? = some '"'

/-- The answer is under no strong tag. -/
def Untagged (resp : Response) : Prop := ∀ tag, resp.etag = some tag → ¬Strong tag

lemma untagged_of_none {resp : Response} (h : resp.etag = none) : Untagged resp :=
  fun tag htag => absurd (h.symm.trans htag) (by simp)

lemma untagged_weak {resp : Response} {len : ℕ} {modified : ℤ} {suffix : Str}
    (h : resp.etag = some (Client.weakEtag len modified suffix)) : Untagged resp := by
  intro tag htag hstrong
  obtain rfl := Option.some.inj (h.symm.trans htag)
  have hhead : (Client.weakEtag len modified suffix).head? = some 'W' := rfl
  exact absurd (hhead.symm.trans hstrong) (by decide)

/-! ## Codings -/

/-- A response in a coding was chosen by what the client accepts, and says so. -/
def Coded (headers : HeaderMap) (resp : Response) : Prop :=
  ∀ coding, resp.contentEncoding = some coding →
    (acceptsEncoding headers coding = true ∨
      coding = "gzip".toList ∧ acceptsGzip headers = true) ∧ resp.vary = varyOn true

lemma coded_of_none {headers : HeaderMap} {resp : Response} (h : resp.contentEncoding = none) :
    Coded headers resp :=
  fun coding hcoding => absurd (h.symm.trans hcoding) (by simp)

/-- What a response that only looks at the disk promises. -/
structure FileAnswer (headers : HeaderMap) (resp : Response) : Prop where
  untagged : Untagged resp
  coded : Coded headers resp

/-! ## Static files -/

section

variable {c : Client} {served : PathBuf → Prop}

/-- Compressing a body leaves the tag. -/
lemma etag_compress (headers : HeaderMap) (resp : Response) (body : List Byte) :
    (c.compress headers resp body).etag = resp.etag := by
  simp only [Client.compress, maybeCompress]
  split <;> rfl

lemma coded_compress (headers : HeaderMap) {resp : Response} (h : resp.contentEncoding = none)
    (body : List Byte) : Coded headers (c.compress headers resp body) := by
  simp only [Client.compress, maybeCompress]
  split
  · next hgzip =>
    intro coding hcoding
    obtain rfl := Option.some.inj hcoding
    simp only [Bool.and_eq_true] at hgzip
    exact ⟨.inr ⟨rfl, hgzip.1.2⟩, rfl⟩
  · exact coded_of_none h

/-- A path may be served, and so may the precompressed files beside it. -/
def Serves (served : PathBuf → Prop) (path : PathBuf) : Prop :=
  served path ∧ ∀ p ∈ Client.precompressed, served (pushSuffix path ('.' :: p.2))

lemma siblingsIn_looks {path : PathBuf} (hpath : Serves served path) (modified : ℤ)
    {codings : List (Str × Str)} (hcodings : ∀ p ∈ codings, p ∈ Client.precompressed) :
    (Client.siblingsIn path modified codings).All (LooksAt served)
      fun siblings => ∀ sibling ∈ siblings, served sibling.path := by
  induction codings with
  | nil => exact fun sibling h => absurd h (by simp)
  | cons p codings ih =>
    have hserved : served (pushSuffix path ('.' :: p.2)) := hpath.2 p (hcodings p (by simp))
    refine ⟨hserved, fun metadata => ?_⟩
    refine (ih fun q hq => hcodings q (List.mem_cons_of_mem _ hq)).bind fun others hothers => ?_
    change Prog.All _ _ (if _ then _ else _)
    split
    · intro sibling hsibling
      rcases List.mem_cons.mp hsibling with rfl | hsibling
      · exact hserved
      · exact hothers sibling hsibling
    · exact hothers

lemma freshSiblings_looks {path : PathBuf} (hpath : Serves served path) (modified : ℤ) :
    (Client.freshSiblings path modified).All (LooksAt served)
      fun siblings => ∀ sibling ∈ siblings, served sibling.path := by
  simp only [Client.freshSiblings]
  split
  · exact fun sibling h => absurd h (by simp)
  · exact siblingsIn_looks hpath modified fun _ h => h

/-- A static file goes out under a weak tag, in an accepted coding. -/
lemma staticAnswer_looks (headers : HeaderMap) {path : PathBuf} (hpath : served path)
    (metadata : Metadata) {siblings : List Client.Sibling}
    (hsiblings : ∀ sibling ∈ siblings, served sibling.path) :
    (c.staticAnswer headers path metadata siblings).All (LooksAt served)
      fun r => ∀ resp, r = some resp → FileAnswer headers resp := by
  simp only [Client.staticAnswer]
  split
  · intro resp heq
    rw [← Option.some.inj heq]
    exact ⟨untagged_weak rfl, coded_of_none rfl⟩
  -- A precompressed sibling goes out when one is accepted, and the file itself otherwise.
  · split
    · next sibling hfind =>
      have hmem := List.mem_of_find?_eq_some hfind
      refine ⟨hsiblings sibling hmem, fun content => ?_⟩
      cases content with
      | none => exact fun resp heq => absurd heq (by simp)
      | some content =>
        intro resp heq
        rw [← Option.some.inj heq]
        refine ⟨untagged_weak rfl, fun coding hcoding => ?_⟩
        obtain rfl := Option.some.inj hcoding
        have hvary : (!siblings.isEmpty) = true := by
          rw [Bool.not_eq_true', List.isEmpty_eq_false_iff_exists_mem]
          exact ⟨sibling, hmem⟩
        have haccepts : acceptsEncoding headers sibling.coding = true :=
          List.find?_some (p := fun x : Client.Sibling => acceptsEncoding headers x.coding) hfind
        exact ⟨.inl haccepts, congrArg varyOn hvary⟩
    · refine ⟨hpath, fun content => ?_⟩
      cases content with
      | none => exact fun resp heq => absurd heq (by simp)
      | some content =>
        intro resp heq
        rw [← Option.some.inj heq]
        exact ⟨untagged_weak (etag_compress _ _ _), coded_compress headers rfl content⟩

lemma staticFile_looks (headers : HeaderMap) {path : PathBuf} (hpath : Serves served path)
    (metadata : Metadata) :
    (c.staticFile headers path metadata).All (LooksAt served)
      fun r => ∀ resp, r = some resp → FileAnswer headers resp := by
  unfold Client.staticFile
  split
  · exact (freshSiblings_looks hpath _).bind fun siblings hsiblings =>
      staticAnswer_looks headers hpath.1 metadata hsiblings
  · exact staticAnswer_looks headers hpath.1 metadata fun _ h => absurd h (by simp)

lemma serveStatic_looks (headers : HeaderMap) {relative : Str}
    (hserves : ∀ path, safeJoin c.cfg.robrowserPath relative = some path →
      Serves served path ∧ Serves served (path ++ ["index.html".toList])) :
    (c.serveStatic headers relative).All (LooksAt served)
      fun r => ∀ resp, r = some resp → FileAnswer headers resp := by
  have hnone : ∀ resp : Response, (none : Option Response) = some resp → FileAnswer headers resp :=
    fun resp heq => absurd heq (by simp)
  unfold Client.serveStatic
  split
  · exact hnone
  · next candidate hjoin =>
    obtain ⟨hcandidate, hpage⟩ := hserves candidate hjoin
    refine ⟨hcandidate.1, fun metadata => ?_⟩
    cases metadata with
    | none => exact hnone
    | some metadata =>
      change Prog.All _ _ (if _ then _ else _)
      split
      · refine ⟨hpage.1, fun metadata => ?_⟩
        cases metadata with
        | none => exact hnone
        | some metadata => exact staticFile_looks headers hpage metadata
      · exact staticFile_looks headers hcandidate metadata

/-- The landing page goes out under no tag. -/
lemma serveRoot_looks (headers : HeaderMap) (hserved : served c.indexPage) :
    (c.serveRoot headers).All (LooksAt served) (FileAnswer headers) := by
  have hpage : ∀ (cacheControl : Option Str) (body : List Byte), FileAnswer headers (c.compress headers
      { status := 200
        contentType := some "text/html; charset=utf-8".toList
        cacheControl := cacheControl
        body := [] } body) := fun _ body =>
    ⟨untagged_of_none (etag_compress _ _ _), coded_compress headers rfl body⟩
  refine ⟨hserved, fun isFile => ?_⟩
  cases isFile with
  | false => exact hpage _ _
  | true =>
    refine ⟨hserved, fun content => ?_⟩
    cases content with
    | none => exact hpage _ _
    | some content => exact hpage _ _

/-- Static files are served from the static tree. -/
lemma serves_static {relative : Str} (path : PathBuf)
    (hjoin : safeJoin c.cfg.robrowserPath relative = some path) :
    Serves c.cfg.Served path ∧ Serves c.cfg.Served (path ++ ["index.html".toList]) := by
  have hserves : ∀ {path}, c.cfg.robrowserPath <+: path → Serves c.cfg.Served path :=
    fun h => ⟨.of_static h, fun _ hp => .of_sibling h hp⟩
  have hpath := safeJoin_prefix hjoin
  exact ⟨hserves hpath, hserves (hpath.trans (List.prefix_append path _))⟩

lemma served_indexPage : c.cfg.Served c.indexPage := .of_root (by decide)

end

end RemoteClient

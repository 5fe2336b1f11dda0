/-
# What cached copies do to answers

The cache knows a path by its lowercase spelling, and whoever stores a copy decides for all
spellings and for all later requests.  A call is answered as on a new client exactly when the
copy it finds is what the sources have for its own path (`answered_eq_iff`).

This decides it for three kinds of copies: those of earlier calls (`answers_as_fresh_iff`),
those of remote calls among local ones (`locals_undisturbed_iff`), and those of the warm-up
(`warmed_as_fresh_iff`).
-/
import RemoteClient.Sources

namespace RemoteClient

open Exec Http

/-- A statement about every item of a list and the items before it. -/
def AtEach {α : Type} (P : List α → α → Prop) (l : List α) : Prop :=
  ∀ before x after, l = before ++ x :: after → P before x

lemma atEach_nil {α : Type} {P : List α → α → Prop} : AtEach P [] := by
  intro before x after h
  exact absurd h.symm (by simp)

lemma atEach_snoc {α : Type} {P : List α → α → Prop} {l : List α} {x : α} :
    AtEach P (l ++ [x]) ↔ AtEach P l ∧ P l x := by
  constructor
  · intro h
    refine ⟨fun before y after hl => h before y (after ++ [x]) ?_, h l x [] rfl⟩
    rw [hl, List.append_assoc, List.cons_append]
  · rintro ⟨hl, hx⟩ before y after heq
    rcases List.eq_nil_or_concat after with rfl | ⟨after, z, rfl⟩
    · obtain ⟨rfl, hxy⟩ := List.append_inj' heq rfl
      rw [← List.head_eq_of_cons_eq hxy]
      exact hx
    · refine hl before y after ?_
      rw [List.concat_eq_append, ← List.cons_append, ← List.append_assoc] at heq
      exact (List.append_inj' heq rfl).1

namespace Client

variable (c : Client) (T : FileSystem)

/-! ## Calls one after the other -/

/-- Calls of `resolveWith`, one after the other. -/
def resolveAll : List (Str × Bool) → Work (List Resolved)
  | [] => return []
  | (reqPath, gameData) :: calls => do
    let r ← c.resolveWith reqPath gameData
    let rs ← resolveAll calls
    return r :: rs

/-- What the calls return on a new client, and the state they leave. -/
def callAll (calls : List (Str × Bool)) : Exec Empty (List Resolved × Server) :=
  (c.resolveAll calls).exec (Server.perform c.platform.md5) (start c.cfg T)

/-- The bytes that a path resolves to on a new client. -/
def freshBytes (reqPath : Str) : Exec Empty (Option (List Byte)) := do
  let (r, _) ← (c.resolve reqPath).exec (Server.perform c.platform.md5) (start c.cfg T)
  r.bytes

/-- What earlier calls may have stored. -/
def Stored (earlier : List (Str × Bool)) (key : Str) (data : List Byte) : Prop :=
  ∃ q ∈ earlier, c.cacheKey q.1 = key ∧ c.sourceData T q.1 q.2 = .ok (some data)

/-- What a warm-up may store. -/
def Warmed (key : Str) (data : List Byte) : Prop :=
  ∃ i ∈ c.index.reachable, ∃ file : IndexedFile,
    (Exec.index c.index.files i.toNat : Exec Empty IndexedFile) = .ok file ∧
    c.isWarm file.name = true ∧ c.readFound file = .ok data ∧
    normForward c.platform.text (Encoding.toMojibake c.platform.text file.name) = key

/-- If a copy of such an origin is cached under the key of a path that is looked for, then it
is what the first source has for the path. -/
def Agrees (Origin : Str → List Byte → Prop) (s : Server) (reqPath : Str) : Prop :=
  c.looksFor reqPath = true → ∀ data, Origin (c.cacheKey reqPath) data →
    s.copy (c.cacheKey reqPath) = some data → c.sourceData T reqPath true = .ok (some data)

/-- The same, for what these calls have stored and what they leave in the cache. -/
def AgreesAfter (calls : List (Str × Bool)) (reqPath : Str) : Prop :=
  ∀ rs s, c.callAll T calls = .ok (rs, s) → c.Agrees T (c.Stored T calls) s reqPath

/-- Calls with the game data. -/
def localCalls (paths : List Str) : List (Str × Bool) := paths.map fun reqPath => (reqPath, true)

end Client

section

variable {c : Client} {T : FileSystem} {Origin : Str → List Byte → Prop} {s s' : Server}

/-! ## A copy that is in the way -/

lemma answered_of_copy {reqPath : Str} (hlooks : c.looksFor reqPath = true) {data : List Byte}
    (hcopy : s.copy (c.cacheKey reqPath) = some data) :
    c.answered T s reqPath true = .ok (some data) := by
  unfold Client.answered
  rw [hlooks, hcopy]
  rfl

/-- An answer is what the sources have unless another copy is in the way. -/
lemma answered_eq_iff (h : Holds T Origin s) (reqPath : Str) :
    c.answered T s reqPath true = c.sourceData T reqPath true ↔ c.Agrees T Origin s reqPath := by
  unfold Client.answered Client.Agrees
  rw [Bool.and_true]
  cases c.looksFor reqPath with
  | false => simp
  | true =>
    simp only [if_true]
    cases hcopy : s.copy (c.cacheKey reqPath) with
    | none => simp [firstOf]
    | some data =>
      constructor
      · rintro hanswered - data' - heq
        rw [← heq]
        exact hanswered.symm
      · exact fun hagrees => (hagrees trivial data (h.copy hcopy) rfl).symm

lemma freshBytes_eq (reqPath : Str) : c.freshBytes T reqPath = c.sourceData T reqPath true := by
  have hstart := holds_start c.cfg T
  obtain ⟨r, s', hexec, hr, -⟩ := resolveWith_exec (c := c) hstart reqPath true
  have hfresh : c.freshBytes T reqPath = r.bytes := by
    unfold Client.freshBytes Client.resolve
    rw [hexec]
    rfl
  rw [hfresh, hr]
  exact (answered_eq_iff hstart reqPath).mpr fun _ _ hnone => hnone.elim

/-! ## Runs -/

/-- A file of a kept size that is stored is the copy under its key. -/
lemma perform_cacheInsert (md5 : List Byte → Vector Byte 16) (hsound : s.cache.Sound) (key : Str)
    (content : List Byte) (hkeeps : s.cache.keeps content.length = true) :
    ∃ file s', s.perform md5 (.cacheInsert key content) = .ok (file, s') ∧ file.data = content ∧
      s'.copy key = some content := by
  obtain ⟨cache, hinsert, hsound', -, hrecency⟩ :=
    FileCache.insert_spec md5 hsound key content s.encodings.length
  let file : CachedFile := ⟨content, computeEtag md5 content, s.encodings.length⟩
  let it : Lru.Item Str CachedFile := ⟨key, file, content.length⟩
  rw [if_pos hkeeps] at hrecency
  have hmem : it ∈ cache.recency := by
    rw [hrecency]
    exact List.mem_append_right _ (List.mem_singleton.mpr rfl)
  refine ⟨file, { s with cache := cache, encodings := s.encodings ++ [⟨key, content, none⟩] }, ?_,
    rfl, ?_⟩
  · simp only [Server.perform, hinsert, ok_bind]
    rfl
  · change (cache.get key).1.map CachedFile.data = some content
    rw [(FileCache.get_spec hsound' key).1, Lru.find?_of_mem hsound'.nodup_keys hmem]
    rfl

lemma store_exec {md5 : List Byte → Vector Byte 16} {key : Str} {content : List Byte}
    {file : CachedFile} (h : s.perform md5 (.cacheInsert key content) = .ok (file, s'))
    (source : Source) :
    (Client.store key content source).exec (Server.perform md5) s =
      .ok (.ok (some (file, source)), s') := by
  change (s.perform md5 (.cacheInsert key content) >>= _) = _
  rw [h]
  rfl

lemma callAll_nil : c.callAll T [] = .ok ([], Client.start c.cfg T) := rfl

lemma callAll_snoc {calls : List (Str × Bool)} {rs : List Resolved} {reqPath : Str}
    {gameData : Bool} {r : Resolved} (h : c.callAll T calls = .ok (rs, s))
    (hcall : (c.resolveWith reqPath gameData).exec (Server.perform c.platform.md5) s =
      .ok (r, s')) :
    c.callAll T (calls ++ [(reqPath, gameData)]) = .ok (rs ++ [r], s') := by
  unfold Client.callAll at h ⊢
  generalize Client.start c.cfg T = s₀ at h ⊢
  induction calls generalizing s₀ rs with
  | nil =>
    obtain ⟨rfl, rfl⟩ := Prod.mk.inj (Except.ok.inj h)
    rw [List.nil_append, Client.resolveAll, Prog.exec_bind, hcall]
    rfl
  | cons call calls ih =>
    rw [Client.resolveAll, Prog.exec_bind] at h
    obtain ⟨⟨r₀, s₁⟩, hfirst, hrest⟩ := bind_eq_ok.mp h
    rw [Prog.exec_bind] at hrest
    obtain ⟨⟨rs', s₂⟩, hcalls, hret⟩ := bind_eq_ok.mp hrest
    obtain ⟨rfl, rfl⟩ := Prod.mk.inj (Except.ok.inj hret)
    rw [List.cons_append, Client.resolveAll, Prog.exec_bind, hfirst, ok_bind, Prog.exec_bind,
      ih s₁ hcalls, ok_bind]
    rfl

/-- One call more. -/
lemma callAll_step {calls : List (Str × Bool)} {rs : List Resolved}
    (h : c.callAll T calls = .ok (rs, s)) (hs : Holds T (c.Stored T calls) s) (reqPath : Str)
    (gameData : Bool) :
    ∃ r s', c.callAll T (calls ++ [(reqPath, gameData)]) = .ok (rs ++ [r], s') ∧
      r.bytes = c.answered T s reqPath gameData ∧
      Holds T (c.Stored T (calls ++ [(reqPath, gameData)])) s' := by
  obtain ⟨r, s', hexec, hr, hs'⟩ := resolveWith_exec (c := c) hs reqPath gameData
  refine ⟨r, s', callAll_snoc h hexec, hr, hs'.mono ?_⟩
  rintro key data (⟨q, hq, hstored⟩ | ⟨rfl, hdata⟩)
  · exact ⟨q, List.mem_append_left _ hq, hstored⟩
  · exact ⟨_, List.mem_append_right _ (List.mem_singleton.mpr rfl), rfl, hdata⟩

lemma callAll_spec (c : Client) (T : FileSystem) (calls : List (Str × Bool)) :
    ∃ rs s, c.callAll T calls = .ok (rs, s) ∧ rs.length = calls.length ∧
      Holds T (c.Stored T calls) s := by
  induction calls using List.reverseRecOn with
  | nil => exact ⟨[], Client.start c.cfg T, rfl, rfl, (holds_start _ T).mono fun _ _ h => h.elim⟩
  | append_singleton calls call ih =>
    obtain ⟨rs, s, hcalls, hlen, hs⟩ := ih
    obtain ⟨r, s', hcalls', -, hs'⟩ := callAll_step hcalls hs call.1 call.2
    exact ⟨rs ++ [r], s', hcalls', by simp [hlen], hs'⟩

/-- The calls leave one state. -/
lemma callAll_holds {calls : List (Str × Bool)} {rs : List Resolved}
    (h : c.callAll T calls = .ok (rs, s)) :
    rs.length = calls.length ∧ Holds T (c.Stored T calls) s := by
  obtain ⟨rs', s', hcalls, hspec⟩ := callAll_spec c T calls
  obtain ⟨rfl, rfl⟩ := Prod.mk.inj (Except.ok.inj (h.symm.trans hcalls))
  exact hspec

lemma agreesAfter_iff {calls : List (Str × Bool)} {rs : List Resolved}
    (h : c.callAll T calls = .ok (rs, s)) (reqPath : Str) :
    c.AgreesAfter T calls reqPath ↔ c.Agrees T (c.Stored T calls) s reqPath := by
  constructor
  · exact fun hafter => hafter rs s h
  · intro hagrees rs' s' hcalls
    obtain ⟨-, rfl⟩ := Prod.mk.inj (Except.ok.inj (h.symm.trans hcalls))
    exact hagrees

/-! ## Paths of one key -/

/-- The sources have for the path what they have for the calls with its key. -/
def Client.OneFile (c : Client) (T : FileSystem) (calls : List (Str × Bool)) (reqPath : Str) :
    Prop :=
  ∀ q ∈ calls, c.cacheKey q.1 = c.cacheKey reqPath → ∀ data,
    c.sourceData T q.1 q.2 = .ok (some data) → c.sourceData T reqPath true = .ok (some data)

lemma Client.OneFile.agreesAfter {calls : List (Str × Bool)} {reqPath : Str}
    (h : c.OneFile T calls reqPath) : c.AgreesAfter T calls reqPath := by
  rintro rs s - - data ⟨q, hq, hkey, hdata⟩ -
  exact h q hq hkey data hdata

lemma Client.OneFile.sublist {calls earlier : List (Str × Bool)} {reqPath : Str}
    (h : c.OneFile T calls reqPath) (hsub : earlier ⊆ calls) : c.OneFile T earlier reqPath :=
  fun q hq => h q (hsub hq)

/-! ## Earlier calls -/

/-- One path more. -/
lemma fresh_step {paths : List Str} {rs : List Resolved}
    (h : c.callAll T (Client.localCalls paths) = .ok (rs, s)) (reqPath : Str) :
    ∃ r s', c.callAll T (Client.localCalls (paths ++ [reqPath])) = .ok (rs ++ [r], s') ∧
      (r.bytes = c.freshBytes T reqPath ↔
        c.AgreesAfter T (Client.localCalls paths) reqPath) := by
  have hs := (callAll_holds h).2
  obtain ⟨r, s', hcalls, hr, -⟩ := callAll_step h hs reqPath true
  refine ⟨r, s', ?_, ?_⟩
  · rw [Client.localCalls, List.map_append]
    exact hcalls
  · rw [hr, freshBytes_eq, answered_eq_iff hs, agreesAfter_iff h]

/-- **A run of calls is answered as on new clients exactly when no copy is in the way.**  On a
disk that stays as it is, the calls get the bytes they would each get on a client with an empty
cache if and only if, at each call, the copy that is still cached under its key from an earlier
call, if there is one, is what the first source has for this path. -/
theorem answers_as_fresh_iff (c : Client) (T : FileSystem) (paths : List Str) :
    ∃ rs s, c.callAll T (Client.localCalls paths) = .ok (rs, s) ∧
      (rs.map Resolved.bytes = paths.map (c.freshBytes T) ↔
        AtEach (fun earlier => c.AgreesAfter T (Client.localCalls earlier)) paths) := by
  induction paths using List.reverseRecOn with
  | nil => exact ⟨[], Client.start c.cfg T, rfl, iff_of_true rfl atEach_nil⟩
  | append_singleton paths reqPath ih =>
    obtain ⟨rs, s, hcalls, hiff⟩ := ih
    obtain ⟨r, s', hcalls', hlast⟩ := fresh_step hcalls reqPath
    refine ⟨rs ++ [r], s', hcalls', ?_⟩
    rw [atEach_snoc, ← hiff, ← hlast, List.map_append, List.map_append]
    exact List.append_singleton_inj

/-- **Paths that share a key only with paths of the same file are answered as on new clients.** -/
theorem answers_as_fresh_of_oneFile (paths : List Str)
    (h : ∀ reqPath ∈ paths, c.OneFile T (Client.localCalls paths) reqPath) :
    ∃ rs s, c.callAll T (Client.localCalls paths) = .ok (rs, s) ∧
      rs.map Resolved.bytes = paths.map (c.freshBytes T) := by
  induction paths using List.reverseRecOn with
  | nil => exact ⟨[], Client.start c.cfg T, rfl, rfl⟩
  | append_singleton paths reqPath ih =>
    have hsub : Client.localCalls paths ⊆ Client.localCalls (paths ++ [reqPath]) :=
      List.map_subset _ (List.subset_append_left _ _)
    obtain ⟨rs, s, hcalls, hfresh⟩ := ih fun q hq =>
      (h q (List.mem_append_left _ hq)).sublist hsub
    obtain ⟨r, s', hcalls', hlast⟩ := fresh_step hcalls reqPath
    have hone := (h reqPath (by simp)).sublist hsub
    refine ⟨rs ++ [r], s', hcalls', ?_⟩
    rw [List.map_append, List.map_append, hfresh, List.map_singleton, List.map_singleton,
      hlast.mpr hone.agreesAfter]

/-- Two files beside the sample server whose names differ in case. -/
def casesDisk : FileSystem where
  node := fun path =>
    if path = [['s'], "A.txt".toList] then some (⟨false, true, 1, 0⟩, some [1])
    else if path = [['s'], "a.txt".toList] then some (⟨false, true, 1, 0⟩, some [2])
    else none
  canonicalize := some

/-- The second file is answered with the bytes of the first, whose copy is under its key. -/
theorem other_case_is_served : ∃ rs s,
    sampleClient.callAll casesDisk (Client.localCalls ["A.txt".toList, "a.txt".toList]) =
      .ok (rs, s) ∧
    rs.map Resolved.bytes = [.ok (some [1]), .ok (some [1])] ∧
    ["A.txt".toList, "a.txt".toList].map (sampleClient.freshBytes casesDisk) =
      [.ok (some [1]), .ok (some [2])] := by
  -- The first call misses and stores the file under the lowered key.
  let start : Server := Client.start sampleClient.cfg casesDisk
  let missed : Server := { start with cache := (start.cache.get "a.txt".toList).2 }
  have hstart : start.cache.Sound := sound_withBudget _ _
  obtain ⟨-, hsound, hlimits, -⟩ := FileCache.get_spec hstart "a.txt".toList
  have hkeeps : missed.cache.keeps 1 = true := by
    refine (keeps_iff _ _).mpr ?_
    rw [show missed.cache.limits = _ from hlimits]
    decide
  obtain ⟨file, s, hinsert, hdata, hcopy⟩ := perform_cacheInsert (s := missed) Calls.sampleMd5
    hsound "a.txt".toList [1] hkeeps
  have hfirst : (sampleClient.resolve "A.txt".toList).exec (Server.perform Calls.sampleMd5) start =
      .ok (.ok (some (file, .localFile)), s) := by
    have hmiss : (start.cache.get "a.txt".toList).1 = none := get_withBudget _ _ _
    have hperform : start.perform Calls.sampleMd5 (.cacheGet "a.txt".toList) =
        .ok (none, missed) := by
      rw [← hmiss]
      rfl
    change (start.perform Calls.sampleMd5 (.cacheGet "a.txt".toList) >>= fun x =>
      Prog.exec (Server.perform Calls.sampleMd5) _ x.2) = _
    rw [hperform, ok_bind]
    exact store_exec hinsert .localFile
  have hcall : sampleClient.callAll casesDisk [("A.txt".toList, true)] =
      .ok ([.ok (some (file, .localFile))], s) := callAll_snoc callAll_nil hfirst
  -- The second path has the same key, so the copy answers for the other file.
  obtain ⟨r, s', hcalls, hr, -⟩ :=
    callAll_step hcall (callAll_holds hcall).2 "a.txt".toList true
  refine ⟨_, s', hcalls, ?_, ?_⟩
  · have hsecond : r.bytes = .ok (some [1]) := hr.trans (answered_of_copy (by decide) hcopy)
    have hfirst : Resolved.bytes (.ok (some (file, .localFile))) = .ok (some file.data) := rfl
    rw [List.map_append, List.map_singleton, List.map_singleton, hfirst, hdata, hsecond]
    rfl
  · simp only [List.map_cons, List.map_nil, freshBytes_eq]
    decide

/-! ## Remote calls -/

/-- What the local calls among the calls returned. -/
def localBytes (calls : List (Str × Bool)) (rs : List Resolved) :
    List (Exec Empty (Option (List Byte))) :=
  ((calls.zip rs).filter fun x => x.1.2).map fun x => x.2.bytes

/-- Without the remote calls the cache holds the same copy under the key of a path, or a copy
that either cache holds is what the first source has. -/
def Client.Undisturbed (c : Client) (T : FileSystem) (calls : List (Str × Bool)) (reqPath : Str) :
    Prop :=
  c.looksFor reqPath = true →
    (∀ rs s rs' s', c.callAll T calls = .ok (rs, s) →
      c.callAll T (calls.filter Prod.snd) = .ok (rs', s') →
      s.copy (c.cacheKey reqPath) = s'.copy (c.cacheKey reqPath)) ∨
    c.AgreesAfter T calls reqPath ∧ c.AgreesAfter T (calls.filter Prod.snd) reqPath

lemma firstOf_eq_firstOf_iff {x y : Option (List Byte)} {d : Exec Empty (Option (List Byte))} :
    firstOf x d = firstOf y d ↔ x = y ∨ firstOf x d = d ∧ firstOf y d = d := by
  constructor
  · intro h
    cases x with
    | none => exact .inr ⟨rfl, h.symm⟩
    | some data =>
      cases y with
      | none => exact .inr ⟨h, rfl⟩
      | some data' => exact .inl (Except.ok.inj h)
  · rintro (rfl | ⟨hx, hy⟩)
    · rfl
    · rw [hx, hy]

lemma answered_eq_answered_iff {calls : List (Str × Bool)} {rs rs' : List Resolved}
    (h : c.callAll T calls = .ok (rs, s)) (h' : c.callAll T (calls.filter Prod.snd) = .ok (rs', s'))
    (reqPath : Str) :
    c.answered T s reqPath true = c.answered T s' reqPath true ↔ c.Undisturbed T calls reqPath := by
  unfold Client.Undisturbed
  rw [agreesAfter_iff h, agreesAfter_iff h', ← answered_eq_iff (callAll_holds h).2,
    ← answered_eq_iff (callAll_holds h').2]
  have hcopies : (∀ rs₁ s₁ rs₂ s₂, c.callAll T calls = .ok (rs₁, s₁) →
      c.callAll T (calls.filter Prod.snd) = .ok (rs₂, s₂) →
      s₁.copy (c.cacheKey reqPath) = s₂.copy (c.cacheKey reqPath)) ↔
        s.copy (c.cacheKey reqPath) = s'.copy (c.cacheKey reqPath) := by
    constructor
    · exact fun hall => hall rs s rs' s' h h'
    · intro heq rs₁ s₁ rs₂ s₂ h₁ h₂
      obtain ⟨-, rfl⟩ := Prod.mk.inj (Except.ok.inj (h.symm.trans h₁))
      obtain ⟨-, rfl⟩ := Prod.mk.inj (Except.ok.inj (h'.symm.trans h₂))
      exact heq
  rw [hcopies]
  unfold Client.answered
  cases c.looksFor reqPath with
  | false => simp
  | true =>
    simp only [Bool.and_true, if_true, true_implies]
    exact firstOf_eq_firstOf_iff

/-- One call more. -/
lemma locals_step {calls : List (Str × Bool)} {rs rs' : List Resolved}
    (h : c.callAll T calls = .ok (rs, s)) (h' : c.callAll T (calls.filter Prod.snd) = .ok (rs', s'))
    (call : Str × Bool) :
    ∃ rs₁ s₁ rs₁' s₁', c.callAll T (calls ++ [call]) = .ok (rs₁, s₁) ∧
      c.callAll T ((calls ++ [call]).filter Prod.snd) = .ok (rs₁', s₁') ∧
      (localBytes (calls ++ [call]) rs₁ = rs₁'.map Resolved.bytes ↔
        localBytes calls rs = rs'.map Resolved.bytes ∧
          (call.2 = true → c.Undisturbed T calls call.1)) := by
  obtain ⟨reqPath, gameData⟩ := call
  obtain ⟨hlen, hs⟩ := callAll_holds h
  obtain ⟨r, t, hcalls, hr, -⟩ := callAll_step h hs reqPath gameData
  have hzip : (calls ++ [(reqPath, gameData)]).zip (rs ++ [r]) =
      calls.zip rs ++ [((reqPath, gameData), r)] := List.zip_append hlen.symm
  rw [List.filter_append]
  cases gameData with
  | false =>
    -- A remote call adds no local answer on either side.
    refine ⟨rs ++ [r], t, rs', s', hcalls, ?_, ?_⟩
    · rw [List.filter_cons_of_neg (by simp), List.filter_nil, List.append_nil]
      exact h'
    · have hbytes : localBytes (calls ++ [(reqPath, false)]) (rs ++ [r]) = localBytes calls rs := by
        rw [localBytes, hzip, List.filter_append, List.filter_cons_of_neg (by simp),
          List.filter_nil, List.append_nil]
        rfl
      rw [hbytes]
      simp
  | true =>
    -- A local call adds one answer on each side, and these agree exactly when it is undisturbed.
    obtain ⟨r', t', hlocals, hr', -⟩ := callAll_step h' (callAll_holds h').2 reqPath true
    refine ⟨rs ++ [r], t, rs' ++ [r'], t', hcalls, ?_, ?_⟩
    · rw [List.filter_cons_of_pos (by simp), List.filter_nil]
      exact hlocals
    · have hbytes : localBytes (calls ++ [(reqPath, true)]) (rs ++ [r]) =
          localBytes calls rs ++ [r.bytes] := by
        rw [localBytes, hzip, List.filter_append, List.map_append]
        rfl
      have hlast : r.bytes = r'.bytes ↔ c.Undisturbed T calls reqPath := by
        rw [hr, hr']
        exact answered_eq_answered_iff h h' reqPath
      rw [hbytes, List.map_append, List.map_singleton, List.append_singleton_inj, hlast]
      simp

/-- **Remote calls change no local answer exactly when they leave the copies as they are.**  In
a run of calls on a disk that stays as it is, every local call gets the bytes it gets without
the remote ones if and only if each local call finds the copy it finds without them, or what it
finds in either case is what the first source has for its path. -/
theorem locals_undisturbed_iff (c : Client) (T : FileSystem) (calls : List (Str × Bool)) :
    ∃ rs s rs' s', c.callAll T calls = .ok (rs, s) ∧
      c.callAll T (calls.filter Prod.snd) = .ok (rs', s') ∧
      (localBytes calls rs = rs'.map Resolved.bytes ↔
        AtEach (fun earlier call => call.2 = true → c.Undisturbed T earlier call.1) calls) := by
  -- What a call gets depends on the calls before it, so calls are added at the end.
  induction calls using List.reverseRecOn with
  | nil =>
    exact ⟨[], Client.start c.cfg T, [], Client.start c.cfg T, rfl, rfl,
      iff_of_true rfl atEach_nil⟩
  | append_singleton calls call ih =>
    obtain ⟨rs, s, rs', s', hcalls, hlocals, hiff⟩ := ih
    obtain ⟨rs₁, s₁, rs₁', s₁', hcalls₁, hlocals₁, hstep⟩ := locals_step hcalls hlocals call
    refine ⟨rs₁, s₁, rs₁', s₁', hcalls₁, hlocals₁, ?_⟩
    rw [hstep, atEach_snoc, hiff]

/-- **Local calls whose paths share a key only with paths of the same file are not disturbed.** -/
theorem locals_undisturbed_of_oneFile (calls : List (Str × Bool))
    (h : ∀ call ∈ calls, call.2 = true → c.OneFile T calls call.1) :
    ∃ rs s rs' s', c.callAll T calls = .ok (rs, s) ∧
      c.callAll T (calls.filter Prod.snd) = .ok (rs', s') ∧
      localBytes calls rs = rs'.map Resolved.bytes := by
  induction calls using List.reverseRecOn with
  | nil => exact ⟨[], Client.start c.cfg T, [], Client.start c.cfg T, rfl, rfl, rfl⟩
  | append_singleton calls call ih =>
    have hsub : calls ⊆ calls ++ [call] := List.subset_append_left _ _
    obtain ⟨rs, s, rs', s', hcalls, hlocals, hsame⟩ := ih fun q hq hlocal =>
      (h q (hsub hq) hlocal).sublist hsub
    obtain ⟨rs₁, s₁, rs₁', s₁', hcalls₁, hlocals₁, hstep⟩ := locals_step hcalls hlocals call
    refine ⟨rs₁, s₁, rs₁', s₁', hcalls₁, hlocals₁, hstep.mpr ⟨hsame, fun hlocal _ => .inr ?_⟩⟩
    have hone := (h call (by simp) hlocal).sublist hsub
    exact ⟨hone.agreesAfter, (hone.sublist (List.filter_subset_self _)).agreesAfter⟩

/-- The sample server with a client directory for BGM and an override directory. -/
def layeredClient : Client :=
  { sampleClient with cfg := { sampleClient.cfg with
      bgmPath := some [['b']]
      dataOverridePath := some [['o']] } }

/-- A song that is in the client directory, and another one that overrides it. -/
def layeredDisk : FileSystem where
  node := fun path =>
    if path = [['b'], "a.mp3".toList] then some (⟨false, true, 1, 0⟩, some [1])
    else if path = [['o'], "BGM".toList, "a.mp3".toList] then some (⟨false, true, 1, 0⟩, some [2])
    else none
  canonicalize := some

/-- A remote call for the song stores the file of the override directory. -/
lemma layered_remote (hs : s.disk = layeredDisk) :
    (layeredClient.resolveWith "BGM/a.mp3".toList false).exec (Server.perform Calls.sampleMd5) s =
      (Client.store "bgm/a.mp3".toList [2] .dataOverride).exec
        (Server.perform Calls.sampleMd5) s := by
  have hpublic : publicAssetPath "BGM/a.mp3".toList = true := by decide
  have hjoin : safeJoin layeredClient.cfg.root "BGM/a.mp3".toList =
      some [['s'], "BGM".toList, "a.mp3".toList] := by decide
  have hkey : layeredClient.cacheKey "BGM/a.mp3".toList = "bgm/a.mp3".toList := by decide
  have hover : (layeredClient.cfg.dataOverridePath.bind fun dir =>
      safeJoin dir (stripLeadingData "BGM/a.mp3".toList)) =
        some [['o'], "BGM".toList, "a.mp3".toList] := by decide
  have hloose : s.disk.isFile [['s'], "BGM".toList, "a.mp3".toList] = false := by
    rw [hs]
    decide
  have hfile : s.disk.isFile [['o'], "BGM".toList, "a.mp3".toList] = true := by
    rw [hs]
    decide
  have hread : s.disk.read [['o'], "BGM".toList, "a.mp3".toList] = some [2] := by
    rw [hs]
    decide
  unfold Client.resolveWith
  rw [hpublic, hjoin, hkey]
  -- A remote call skips the client directory, so the override directory answers.
  change Prog.exec _ (layeredClient.resolveLocal _ _ _ false) s = _
  unfold Client.resolveLocal
  rw [Client.resolveClientDirectory_remote]
  change Prog.exec _ (if s.disk.isFile [['s'], "BGM".toList, "a.mp3".toList] = true then _ else _)
    s = _
  rw [hloose]
  unfold Client.resolveOverride
  rw [hover]
  change Prog.exec _ (if s.disk.isFile [['o'], "BGM".toList, "a.mp3".toList] = true then _ else _)
    s = _
  rw [hfile]
  have hperform : s.perform Calls.sampleMd5 (.read [['o'], "BGM".toList, "a.mp3".toList]) =
      .ok (some [2], s) := by
    rw [← hread]
    rfl
  change (s.perform Calls.sampleMd5 (.read [['o'], "BGM".toList, "a.mp3".toList]) >>= fun x =>
    Prog.exec (Server.perform Calls.sampleMd5) _ x.2) = _
  rw [hperform, ok_bind]
  rfl

/-- The local call after it gets that file in place of the one of the client directory. -/
theorem remote_copy_is_served : ∃ rs s rs' s',
    layeredClient.callAll layeredDisk [("BGM/a.mp3".toList, false), ("BGM/a.mp3".toList, true)] =
      .ok (rs, s) ∧
    layeredClient.callAll layeredDisk [("BGM/a.mp3".toList, true)] = .ok (rs', s') ∧
    localBytes [("BGM/a.mp3".toList, false), ("BGM/a.mp3".toList, true)] rs =
      [.ok (some [2])] ∧
    rs'.map Resolved.bytes = [.ok (some [1])] := by
  have hkeeps : (Client.start layeredClient.cfg layeredDisk).cache.keeps 1 = true :=
    (keeps_iff _ _).mpr (by decide)
  obtain ⟨file, s, hinsert, -, hcopy⟩ := perform_cacheInsert
    (s := Client.start layeredClient.cfg layeredDisk) Calls.sampleMd5 (sound_withBudget _ _)
    "bgm/a.mp3".toList [2] hkeeps
  have hfirst : (layeredClient.resolveWith "BGM/a.mp3".toList false).exec
      (Server.perform Calls.sampleMd5) (Client.start layeredClient.cfg layeredDisk) =
        .ok (.ok (some (file, .dataOverride)), s) := by
    rw [layered_remote rfl]
    exact store_exec hinsert .dataOverride
  have hcall := callAll_snoc (callAll_nil (c := layeredClient)) hfirst
  obtain ⟨r, s', hcalls, hr, -⟩ :=
    callAll_step hcall (callAll_holds hcall).2 "BGM/a.mp3".toList true
  have hcopied : r.bytes = .ok (some [2]) := hr.trans (answered_of_copy (by decide) hcopy)
  have hstart := holds_start layeredClient.cfg layeredDisk
  obtain ⟨r', t', hlocal, hr', -⟩ := callAll_step (c := layeredClient) callAll_nil
    (hstart.mono fun _ _ h => h.elim) "BGM/a.mp3".toList true
  have hsource : r'.bytes = .ok (some [1]) := by
    rw [hr', (answered_eq_iff hstart _).mpr fun _ _ h => h.elim]
    decide
  exact ⟨_, s', _, t', hcalls, hlocal, congrArg (fun bytes => [bytes]) hcopied,
    congrArg (fun bytes => [bytes]) hsource⟩

/-! ## The warm-up -/

lemma stores_warmFiles (limit : ℕ) {reachable : List (BitVec 32)}
    (hreachable : ∀ i ∈ reachable, i ∈ c.index.reachable) (warmed : ℕ) :
    (c.warmFiles limit reachable warmed).Within (OnDisk T) (Stores c.Warmed) fun _ => True := by
  induction reachable generalizing warmed with
  | nil => trivial
  | cons i reachable ih =>
    have hrest := ih fun j hj => hreachable j (List.mem_cons_of_mem i hj)
    unfold Client.warmFiles
    cases hfile : Exec.index c.index.files i.toNat with
    | error stop => trivial
    | ok file =>
      simp only
      split
      · trivial
      · split
        · exact hrest warmed
        · next hwarm =>
          cases hread : c.readFound file with
          | ok content =>
            have hmem := hreachable i List.mem_cons_self
            refine ⟨⟨i, hmem, file, hfile, ?_, hread, rfl⟩, fun _ _ => ?_⟩
            · simpa using hwarm
            · exact hrest (warmed + 1)
          | error stop =>
            cases stop with
            | err _ => exact hrest warmed
            | panic => trivial
            | hang => trivial

/-- A warm-up ends, and leaves the copies that it made. -/
lemma warmCache_exec (c : Client) (T : FileSystem) (limit : ℕ) :
    ∃ warmed s, (c.warmCache limit).exec (Server.perform c.platform.md5) (Client.start c.cfg T) =
      .ok (warmed, s) ∧ Holds T c.Warmed s := by
  obtain ⟨warmed, s, hwarm, -, hs⟩ := Prog.Within.exec
    (stores_warmFiles (T := T) limit (fun _ hi => hi) 0) (holds_perform _ fun _ _ => id)
    ((holds_start c.cfg T).mono fun _ _ h => h.elim)
  exact ⟨warmed, s, hwarm, hs⟩

/-- **A warmed client answers as a new one exactly when no warm copy is in the way.**  After a
warm-up a path resolves to the bytes it resolves to without if and only if the copy that the
warm-up left under its key, if there is one, is what the first source has for it. -/
theorem warmed_as_fresh_iff (c : Client) (T : FileSystem) (limit : ℕ) (reqPath : Str) :
    ∃ warmed s r s', (c.warmCache limit).exec (Server.perform c.platform.md5)
        (Client.start c.cfg T) = .ok (warmed, s) ∧
      (c.resolve reqPath).exec (Server.perform c.platform.md5) s = .ok (r, s') ∧
      (r.bytes = c.freshBytes T reqPath ↔ c.Agrees T c.Warmed s reqPath) := by
  obtain ⟨warmed, s, hwarm, hs⟩ := warmCache_exec c T limit
  obtain ⟨r, s', hresolve, hr, -⟩ := resolveWith_exec (c := c) hs reqPath true
  refine ⟨warmed, s, r, s', hwarm, hresolve, ?_⟩
  rw [hr, freshBytes_eq, answered_eq_iff hs]

/-- **A path is answered as on a new client if the files to be warmed under its key are what the
first source has for it**, whatever the limit. -/
theorem warmed_as_fresh_of_sources (limit : ℕ) {reqPath : Str}
    (h : ∀ data, c.Warmed (c.cacheKey reqPath) data →
      c.sourceData T reqPath true = .ok (some data)) :
    ∃ warmed s r s', (c.warmCache limit).exec (Server.perform c.platform.md5)
        (Client.start c.cfg T) = .ok (warmed, s) ∧
      (c.resolve reqPath).exec (Server.perform c.platform.md5) s = .ok (r, s') ∧
      r.bytes = c.freshBytes T reqPath := by
  obtain ⟨warmed, s, hwarm, hs⟩ := warmCache_exec c T limit
  obtain ⟨r, s', hresolve, hr, -⟩ := resolveWith_exec (c := c) hs reqPath true
  refine ⟨warmed, s, r, s', hwarm, hresolve, ?_⟩
  rw [hr, freshBytes_eq, answered_eq_iff hs]
  exact fun _ data hdata _ => h data hdata

/-- An archive of one stored file, right behind the header. -/
def storedGrf (name : Str) (data : List Byte) : Grf :=
  { AssetIndex.fakeGrf [name] with
    files := [⟨name, ⟨0, BitVec.ofNat 32 data.length, BitVec.ofNat 32 data.length,
      BitVec.ofNat 32 data.length, 1, Vector.replicate 16 0, Vector.replicate 16 0⟩⟩]
    handle := List.replicate 46 0 ++ data
    size := 46 + data.length }

/-- A file whose name is among those to warm. -/
def warmName : Str := "a.lub".toList

/-- The warm-up pattern for the small Lua files; the other patterns match no name that the samples
ask about. -/
def lubRegex (_ : Bool) (pattern : Str) : Option (Str → Bool) :=
  if pattern = "(?i)\\.lub$".toList then some fun name => ".lub".toList.isSuffixOf (asciiLower name)
  else some fun _ => false

/-- The server of `layeredClient` with an archive of that file. -/
def warmClient : Client :=
  .new { sampleClient.platform with regex := lubRegex } layeredClient.cfg [storedGrf warmName [1]]

/-- An override directory with another file of that name. -/
def translatedDisk : FileSystem where
  node := fun path =>
    if path = [['o'], warmName] then some (⟨false, true, 1, 0⟩, some [2]) else none
  canonicalize := some

/-- The record of a stored file of one byte in the first archive. -/
def storedFile (name : Str) : IndexedFile :=
  ⟨0, name, ⟨0, 1, 1, 1, 1, Vector.replicate 16 0, Vector.replicate 16 0⟩⟩

lemma warmClient_reachable : warmClient.index.reachable = [0] := by
  simp [warmClient, Client.new, AssetIndex.build, AssetIndex.addFile, AssetIndex.claim, storedGrf,
    AssetIndex.empty]

/-- The warm-up reads the file of the archive and stores it. -/
lemma warm_exec {s s' : Server} {file : CachedFile}
    (h : s.perform Calls.sampleMd5 (.cacheInsert warmName [1]) = .ok (file, s')) :
    (warmClient.warmCache 1).exec (Server.perform Calls.sampleMd5) s = .ok (.ok 1, s') := by
  have hfile : (Exec.index warmClient.index.files (BitVec.toNat (0 : BitVec 32)) :
      Exec Empty IndexedFile) = .ok (storedFile warmName) := rfl
  have hread : warmClient.readFound (storedFile warmName) = .ok [1] := rfl
  have hwarm : warmClient.isWarm (storedFile warmName).name = true := by decide
  unfold Client.warmCache
  rw [warmClient_reachable]
  unfold Client.warmFiles
  rw [hfile]
  simp only [hwarm, hread]
  change (s.perform Calls.sampleMd5 (.cacheInsert warmName [1]) >>= _) = _
  rw [h]
  rfl

/-- After the warm-up the file of the archive is served in place of its translation. -/
theorem warm_copy_is_served : ∃ s r s',
    (warmClient.warmCache 1).exec (Server.perform warmClient.platform.md5)
      (Client.start warmClient.cfg translatedDisk) = .ok (.ok 1, s) ∧
    (warmClient.resolve warmName).exec (Server.perform warmClient.platform.md5) s =
      .ok (r, s') ∧
    r.bytes = .ok (some [1]) ∧
    warmClient.freshBytes translatedDisk warmName = .ok (some [2]) := by
  have hkeeps : (Client.start warmClient.cfg translatedDisk).cache.keeps 1 = true :=
    (keeps_iff _ _).mpr (by decide)
  obtain ⟨file, s, hinsert, -, hcopy⟩ := perform_cacheInsert
    (s := Client.start warmClient.cfg translatedDisk) Calls.sampleMd5 (sound_withBudget _ _)
    warmName [1] hkeeps
  have hs : Holds translatedDisk (fun _ _ => True) s := by
    have hstart : Holds translatedDisk (fun _ _ => True)
        (Client.start warmClient.cfg translatedDisk) :=
      (holds_start _ _).mono fun _ _ h => h.elim
    obtain ⟨file', t, hperform, -, ht⟩ := holds_perform Calls.sampleMd5 (fun _ _ => id) _
      (.cacheInsert warmName [1]) hstart trivial
    obtain ⟨-, rfl⟩ := Prod.mk.inj (Except.ok.inj (hinsert.symm.trans hperform))
    exact ht
  obtain ⟨r, s', hresolve, hr, -⟩ := resolveWith_exec (c := warmClient) hs warmName true
  refine ⟨s, r, s', warm_exec hinsert, hresolve,
    hr.trans (answered_of_copy (by decide) hcopy), ?_⟩
  rw [freshBytes_eq]
  decide

end

end RemoteClient

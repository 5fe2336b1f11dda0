/-
# Remote requests and the game data

With `remoteGrfData` off, a remote request is answered from what this server adds to the game
and from nothing else.  Its program does not mention the archives or the client directories
(`handle_bare`); and whatever local requests have put into the cache and the slots meanwhile,
it returns what it would return alone on a server with nothing but the served part of the
disk (`safe_handle`).

So the answers of two servers that agree on that part are the same (`remote_answers_agree`),
in any order of local and remote requests.
-/
import RemoteClient.Etags

namespace RemoteClient

open Exec Http

namespace Client

variable (c : Client)

/-- A client without archives and client directories. -/
def bare : Client where
  platform := c.platform
  cfg := { c.cfg with bgmPath := none, aiPath := none }
  grfs := []
  index := AssetIndex.empty

/-! ## The program of a remote request -/

lemma resolveClientDirectory_remote (key reqPath : Str) :
    c.resolveClientDirectory key reqPath false = c.resolveOverride key reqPath false := by
  unfold resolveClientDirectory
  cases c.clientDirectory reqPath <;> rfl

/-- A file that a request is the first and only one to read. -/
def aloneFile (md5 : List Byte → Vector Byte 16) (data : List Byte) : CachedFile :=
  ⟨data, computeEtag md5 data, 0⟩

/-- What the actions of a request answer when nothing is cached and the disk is `T`. -/
def alone (md5 : List Byte → Vector Byte 16) (T : FileSystem) : (a : Action) → a.Answer
  | .cacheGet _ => none
  | .cacheInsert _ data => aloneFile md5 data
  | .addEncoding _ _ _ => ()
  | .slotGet _ _ => none
  | .slotInit _ _ value => (value, true)
  | .isFile path => T.isFile path
  | .read path => T.read path
  | .metadata path => T.metadata path
  | .canonicalize path => T.canonicalize path
  | .extract _ _ => ()
  | .logMissing _ => ()

end Client

/-- What is read from a path if there is a file. -/
def FileSystem.fileData (T : FileSystem) (path : PathBuf) : Option (List Byte) :=
  if T.isFile path then T.read path else none

namespace Client

variable (c : Client) (T : FileSystem)

/-- The bytes of a path in the override directory. -/
def overrideData (reqPath : Str) : Option (List Byte) :=
  (c.cfg.dataOverridePath.bind fun dir => safeJoin dir (stripLeadingData reqPath)).bind T.fileData

variable {c T}

end Client

/-! ## A remote request among others -/

section

variable {c : Client} {T : FileSystem} (hguarded : Guarded c c.cfg.Served) {s : Server}

/-- A program returns among others what it returns alone. -/
def AsAlone {α : Type} (hguarded : Guarded c c.cfg.Served) (T : FileSystem) (p : Work α)
    (s : Server) : Prop :=
  (contract hguarded T).Safe (fun a _ => a = p.eval (Client.alone c.platform.md5 T)) p s

variable {α β : Type}

lemma AsAlone.ret (a : α) : AsAlone hguarded T (.ret a) s := rfl

lemma AsAlone.bind {p : Work α} {f : α → Work β} (h : AsAlone hguarded T p s)
    (hf : ∀ s', AsAlone hguarded T (f (p.eval (Client.alone c.platform.md5 T))) s') :
    AsAlone hguarded T (p >>= f) s := by
  refine Contract.Safe.bind h fun a s' _ ha => ?_
  rw [Prog.eval_bind, ha]
  exact hf s'

/-- Whoever looks only at the served part of the disk might as well be alone. -/
lemma AsAlone.looks {P : α → Prop} {p : Work α} (h : p.All (LooksAt c.cfg.Served) P) :
    AsAlone hguarded T p s := by
  refine Contract.Safe.of_eval (fun a ha s hsane => ⟨ha.allowed, fun r s' hperform => ?_⟩) h
  obtain ⟨hsane', hgrown, hanswers⟩ := perform_spec hsane ha.allowed hperform
  refine ⟨hsane', hgrown, ?_⟩
  cases a with
  | isFile | read | metadata => exact hanswers ha
  | _ => exact absurd ha (by simp [LooksAt])

end

end RemoteClient

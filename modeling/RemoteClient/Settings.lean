/-
# The settings

The program is configured by its environment, and a `.env` file adds to that: `loadDotenv` sets
the variables that are not set yet.  A document is what the lines of such a file say; what it
leaves of the environment is the first assignment of each variable (`loadDotenv_exact`).

`fromEnv` reads the settings out of the environment, in the state that the file leaves it in.
-/
import Mathlib.Data.List.ReduceOption
import RemoteClient.AppProxy
import RemoteClient.Client
import RemoteClient.Lib.Numerals

namespace RemoteClient

open Exec Text

/-! ## The environment -/

/-- The variables of the process.  A value that is no text is `none`. -/
abbrev Environment : Type := Str → Option (Option Str)

namespace Environment

variable (vars : Environment)

/-- `var_os`: no variable has a NUL in its name. -/
def varOs (key : Str) : Option (Option Str) := if '\x00' ∈ key then none else vars key

/-- `set_var`, which panics at a NUL. -/
def setVar (key value : Str) : Exec Empty Environment :=
  if '\x00' ∈ key ∨ '\x00' ∈ value then crash else .ok (Function.update vars key (some (some value)))

/-- A variable that is set to some text. -/
def env (key : Str) : Option Str := (vars.varOs key).join.filter fun v => v ≠ []

def envBool (key : Str) (default : Bool) : Bool :=
  match vars.env key with
  | some v => v = "true".toList
  | none => default

def envUsize (key : Str) (default : ℕ) : ℕ :=
  ((vars.env key).bind fun v => Numerals.parseUnsigned wordSize (trim v)).getD default

def remoteGrfData : Bool := vars.envBool "REMOTE_GRF_DATA".toList true

/-- An extracted copy is a loose file, so nothing is extracted when the game data is kept back. -/
def clientAutoextract : Bool := vars.envBool "CLIENT_AUTOEXTRACT".toList true && vars.remoteGrfData

variable {vars}

lemma clientAutoextract_off (h : vars.remoteGrfData = false) : vars.clientAutoextract = false := by
  rw [clientAutoextract, h, Bool.and_false]

end Environment

/-! ## The `.env` file -/

namespace Dotenv

/-- A value within quotes, or up to a trailing comment. -/
def unquote (value : Str) : Str :=
  let within (quote : Char) : Bool :=
    value.head? = some quote && value.getLast? = some quote && 2 ≤ value.length
  if within '"' || within '\x27' then value.tail.dropLast
  else
    match Lines.cut " #".toList value with
    | some (before, _) => before.rdropWhile isWhite
    | none => value

/-- The variable a line sets, and its value. -/
def assignment (line : Str) : Option (Str × Str) :=
  let line := trim line
  if line = [] ∨ line.head? = some '#' ∨ line.head? = some ';' then none
  else
    let line := if "export ".toList.isPrefixOf line then line.drop 7 else line
    match splitOnce '=' line with
    | none => none
    | some (key, value) =>
      let key := trim key
      if key = [] then none else some (key, unquote (trim value))

/-- What was found so far, and the variables. -/
structure State where
  found : Str → Option Str
  vars : Environment

def State.assign (s : State) (key value : Str) : Exec Empty State :=
  let found := Function.update s.found key (some value)
  if (s.vars.varOs key).isSome then .ok { s with found := found }
  else do
    let vars ← s.vars.setVar key value
    return ⟨found, vars⟩

def State.step (s : State) (line : Str) : Exec Empty State :=
  match assignment line with
  | none => .ok s
  | some (key, value) => s.assign key value

/-- Minimal `.env` reader.  Existing environment variables always win. -/
def loadDotenv (vars : Environment) (file : Option (List Byte)) : Exec Empty State :=
  match file.bind Utf8.decode with
  | none => .ok ⟨fun _ => none, vars⟩
  | some content => (lines content).foldlM State.step ⟨fun _ => none, vars⟩

end Dotenv

/-! ## What a `.env` file says -/

namespace Dotenv

/-- A value that is within quotes. -/
def Quoted (raw value : Str) : Prop :=
  raw = '"' :: (value ++ ['"']) ∨ raw = '\x27' :: (value ++ ['\x27'])

/-- How a value is written. -/
inductive Spells : (raw value : Str) → Prop
  | quoted {raw value : Str} (h : Quoted raw value) : Spells raw value
  | plain {raw : Str} (hquoted : ∀ value, ¬Quoted raw value) (h : ¬" #".toList <:+: raw) :
    Spells raw raw
  /-- A comment starts at the first hash behind a blank. -/
  | comment {raw before after : Str} (hquoted : ∀ value, ¬Quoted raw value)
      (h : raw = before ++ " #".toList ++ after)
      (hfirst : ∀ x y, raw = x ++ " #".toList ++ y → before.length ≤ x.length) :
    Spells raw (before.rdropWhile isWhite)

/-- A line that is neither blank nor a comment, without its blanks and the `export` before it. -/
inductive Statement (line : Str) : Str → Prop
  | bare (hne : trim line ≠ []) (hhash : (trim line).head? ≠ some '#')
      (hsemi : (trim line).head? ≠ some ';') (h : ¬"export ".toList <+: trim line) :
    Statement line (trim line)
  | exported {rest : Str} (h : trim line = "export ".toList ++ rest) : Statement line rest

/-- A line says that a variable has a value, or nothing. -/
inductive Says : Option (Str × Str) → Str → Prop
  | blank {line : Str} (h : trim line = []) : Says none line
  | comment {line : Str} (h : (trim line).head? = some '#' ∨ (trim line).head? = some ';') :
    Says none line
  | unassigned {line rest : Str} (h : Statement line rest) (hkey : '=' ∉ rest) : Says none line
  | unnamed {line key raw : Str} (h : Statement line (key ++ '=' :: raw)) (hkey : '=' ∉ key)
      (hname : trim key = []) : Says none line
  | assign {line key raw value : Str} (h : Statement line (key ++ '=' :: raw)) (hkey : '=' ∉ key)
      (hname : trim key ≠ []) (hvalue : Spells (trim raw) value) :
    Says (some (trim key, value)) line

/-- A document is written as a text. -/
def Written (doc : List (Option (Str × Str))) (text : Str) : Prop :=
  ∃ ls, Lined ls text ∧ List.Forall₂ Says doc ls

/-! ## What the code reads -/

lemma quoted_iff {raw : Str} {q : Char} : (raw.head? = some q ∧ raw.getLast? = some q ∧
    2 ≤ raw.length) ↔ ∃ value, raw = q :: (value ++ [q]) := by
  constructor
  · rintro ⟨hhead, hlast, hlen⟩
    obtain ⟨rest, rfl⟩ := List.head?_eq_some_iff.mp hhead
    rcases List.eq_nil_or_concat rest with rfl | ⟨value, last, rfl⟩
    · exact absurd hlen (by simp)
    · rw [List.concat_eq_append, ← List.cons_append, List.getLast?_concat] at hlast
      exact ⟨value, by rw [List.concat_eq_append, Option.some.inj hlast]⟩
  · rintro ⟨value, rfl⟩
    refine ⟨rfl, ?_, by simp⟩
    rw [← List.cons_append, List.getLast?_concat]

/-- What is within quotes, as the code tests it. -/
lemma quoted_of_iff {raw : Str} : (raw.head? = some '"' && raw.getLast? = some '"' &&
    2 ≤ raw.length || raw.head? = some '\x27' && raw.getLast? = some '\x27' &&
    2 ≤ raw.length) = true ↔ ∃ value, Quoted raw value := by
  have hwithin : ∀ q : Char,
      (raw.head? = some q && raw.getLast? = some q && 2 ≤ raw.length) = true ↔
        ∃ value, raw = q :: (value ++ [q]) := by
    intro q
    rw [← quoted_iff]
    simp [and_assoc]
  rw [Bool.or_eq_true, hwithin, hwithin, ← exists_or]
  rfl

/-- A value is read as it is written. -/
lemma unquote_eq {raw value : Str} (h : Spells raw value) : unquote raw = value := by
  have hbare : ∀ {raw : Str}, (∀ value, ¬Quoted raw value) → unquote raw =
      match Lines.cut " #".toList raw with
      | some (before, _) => before.rdropWhile isWhite
      | none => raw :=
    fun hquoted => if_neg fun h => (quoted_of_iff.mp h).elim hquoted
  cases h with
  | quoted h =>
    have hif : unquote raw = raw.tail.dropLast := if_pos (quoted_of_iff.mpr ⟨value, h⟩)
    rw [hif]
    rcases h with rfl | rfl <;> rw [List.tail_cons, List.dropLast_concat]
  | plain hquoted h =>
    have hcut : Lines.cut " #".toList raw = none := by
      by_contra hsome
      obtain ⟨⟨before, after⟩, hcut⟩ := Option.ne_none_iff_exists'.mp hsome
      exact h ⟨before, after, (Lines.cut_eq_append hcut).symm⟩
    rw [hbare hquoted, hcut]
  | comment hquoted h hfirst =>
    rw [hbare hquoted, Lines.cut_eq_some_iff.mpr ⟨h, hfirst⟩]

/-- Every value is written in one of these ways. -/
lemma spells_unquote (raw : Str) : Spells raw (unquote raw) := by
  by_cases hquoted : ∃ value, Quoted raw value
  · obtain ⟨value, h⟩ := hquoted
    rw [unquote_eq (.quoted h)]
    exact .quoted h
  · have hquoted : ∀ value, ¬Quoted raw value := fun value h => hquoted ⟨value, h⟩
    cases hcut : Lines.cut " #".toList raw with
    | none =>
      have hplain : ¬" #".toList <:+: raw := by
        rintro ⟨before, after, h⟩
        obtain ⟨x, y, hsome⟩ := Lines.cut_isSome " #".toList before after
        rw [h, hcut] at hsome
        exact absurd hsome (by simp)
      rw [unquote_eq (.plain hquoted hplain)]
      exact .plain hquoted hplain
    | some parts =>
      obtain ⟨h, hfirst⟩ := Lines.cut_eq_some_iff.mp hcut
      rw [unquote_eq (.comment hquoted h hfirst)]
      exact .comment hquoted h hfirst

/-- A line that says something else than nothing. -/
lemma assignment_of_statement {line rest : Str} (h : Statement line rest) : assignment line =
    match splitOnce '=' rest with
    | none => none
    | some (key, value) =>
      if trim key = [] then none else some (trim key, unquote (trim value)) := by
  unfold assignment
  cases h with
  | bare hne hhash hsemi h =>
    have hskip : ¬(trim line = [] ∨ (trim line).head? = some '#' ∨ (trim line).head? = some ';') :=
      not_or.mpr ⟨hne, not_or.mpr ⟨hhash, hsemi⟩⟩
    simp only [if_neg hskip, List.isPrefixOf_iff_prefix, if_neg h]
  | exported h =>
    have hskip : ¬(trim line = [] ∨ (trim line).head? = some '#' ∨ (trim line).head? = some ';') := by
      rw [h]
      simp
    have hprefix : "export ".toList <+: trim line := ⟨rest, h.symm⟩
    have hdrop : (trim line).drop 7 = rest := by
      rw [h]
      rfl
    simp only [if_neg hskip, List.isPrefixOf_iff_prefix, if_pos hprefix, hdrop]

/-- A line is read as what it says. -/
lemma assignment_eq {l : Option (Str × Str)} {line : Str} (h : Says l line) :
    assignment line = l := by
  cases h with
  | blank h => exact if_pos (.inl h)
  | comment h => exact if_pos (.inr h)
  | unassigned h hkey =>
    rw [assignment_of_statement h, splitOnce_eq_none hkey]
  | unnamed h hkey hname =>
    rw [assignment_of_statement h, splitOnce_eq_some_iff.mpr ⟨rfl, hkey⟩]
    exact if_pos hname
  | assign h hkey hname hvalue =>
    rw [assignment_of_statement h, splitOnce_eq_some_iff.mpr ⟨rfl, hkey⟩, ← unquote_eq hvalue]
    exact if_neg hname

/-- Every line says something. -/
lemma says_assignment (line : Str) : Says (assignment line) line := by
  have hstatement : ∀ {rest}, Statement line rest → Says (assignment line) line := by
    intro rest h
    by_cases hassign : '=' ∈ rest
    · obtain ⟨key, raw, rfl, hkey⟩ := List.eq_append_cons_of_mem hassign
      by_cases hname : trim key = []
      · rw [assignment_eq (.unnamed h hkey hname)]
        exact .unnamed h hkey hname
      · have hsays := Says.assign h hkey hname (spells_unquote (trim raw))
        rw [assignment_eq hsays]
        exact hsays
    · rw [assignment_eq (.unassigned h hassign)]
      exact .unassigned h hassign
  by_cases hblank : trim line = []
  · rw [assignment_eq (.blank hblank)]
    exact .blank hblank
  by_cases hcomment : (trim line).head? = some '#' ∨ (trim line).head? = some ';'
  · rw [assignment_eq (.comment hcomment)]
    exact .comment hcomment
  rw [not_or] at hcomment
  by_cases hexport : "export ".toList <+: trim line
  · obtain ⟨rest, hrest⟩ := hexport
    exact hstatement (.exported hrest.symm)
  · exact hstatement (.bare hblank hcomment.1 hcomment.2 hexport)

lemma exists_written (text : Str) : ∃ doc, Written doc text := by
  obtain ⟨ls, hls⟩ := exists_lined text
  refine ⟨ls.map assignment, ls, hls, ?_⟩
  rw [List.forall₂_map_left_iff, List.forall₂_same]
  exact fun line _ => says_assignment line

/-! ## What it leaves of the environment -/

/-- Every variable that is to be set can be. -/
def Settable (vars : Environment) (assigned : List (Str × Str)) : Prop :=
  ∀ key value, vars.varOs key = none → assigned.lookup key = some value →
    '\x00' ∉ key ∧ '\x00' ∉ value

/-- Existing variables stay, and the others have their first value. -/
structure Leaves (vars : Environment) (found : Str → Option Str) (assigned : List (Str × Str))
    (s : State) : Prop where
  vars : ∀ key, s.vars.varOs key = (vars.varOs key).or ((assigned.lookup key).map some)
  found : ∀ key, s.found key = (assigned.reverse.lookup key).or (found key)

lemma assign_ok {s : State} {key value : Str}
    (h : s.vars.varOs key = none → '\x00' ∉ key ∧ '\x00' ∉ value) :
    ∃ s', s.assign key value = .ok s' ∧ s'.found = Function.update s.found key (some value) ∧
      ∀ k, s'.vars.varOs k = (s.vars.varOs k).or (if k = key then some (some value) else none) := by
  unfold State.assign
  cases hset : s.vars.varOs key with
  | some old =>
    refine ⟨_, if_pos rfl, rfl, fun k => ?_⟩
    split
    · next heq => rw [heq, hset, Option.some_or]
    · rw [Option.or_none]
  | none =>
    obtain ⟨hkey, hvalue⟩ := h hset
    have hnul : ¬('\x00' ∈ key ∨ '\x00' ∈ value) := not_or.mpr ⟨hkey, hvalue⟩
    refine ⟨⟨_, Function.update s.vars key (some (some value))⟩, ?_, rfl, fun k => ?_⟩
    · simp only [Option.isSome_none, Bool.false_eq_true, if_false, Environment.setVar, if_neg hnul,
        ok_bind]
      rfl
    · change (if '\x00' ∈ k then none else Function.update s.vars key (some (some value)) k) = _
      by_cases heq : k = key
      · rw [heq, hset, if_neg hkey, Function.update_self, if_pos rfl, Option.none_or]
      · rw [Function.update_of_ne heq, if_neg heq, Option.or_none]
        rfl

lemma assign_crash {s : State} {key value : Str} (hset : s.vars.varOs key = none)
    (h : ¬('\x00' ∉ key ∧ '\x00' ∉ value)) : s.assign key value = crash := by
  have hnul : '\x00' ∈ key ∨ '\x00' ∈ value := by
    rwa [not_and_or, not_not, not_not] at h
  simp only [State.assign, hset, Option.isSome_none, Bool.false_eq_true, if_false,
    Environment.setVar, if_pos hnul]
  rfl

/-- The run lemma: one assignment after the other. -/
lemma foldlM_assign {s : State} (assigned : List (Str × Str)) :
    (Settable s.vars assigned → ∃ s', assigned.foldlM (fun s a => s.assign a.1 a.2) s = .ok s' ∧
      Leaves s.vars s.found assigned s') ∧
    (¬Settable s.vars assigned → assigned.foldlM (fun s a => s.assign a.1 a.2) s = crash) := by
  induction assigned generalizing s with
  | nil =>
    refine ⟨fun _ => ⟨s, rfl, fun _ => (Option.or_none ..).symm, fun _ => rfl⟩, fun h => ?_⟩
    exact absurd (fun _ _ _ hlookup => absurd hlookup (by simp)) h
  | cons a assigned ih =>
    obtain ⟨key, value⟩ := a
    rw [List.foldlM_cons]
    by_cases hok : s.vars.varOs key = none → '\x00' ∉ key ∧ '\x00' ∉ value
    · obtain ⟨s₁, hs₁, hfound, hvars⟩ := assign_ok hok
      rw [hs₁, ok_bind]
      -- What is left to set is the same, but for the variable that is set now.
      have hsettable : Settable s₁.vars assigned ↔ Settable s.vars ((key, value) :: assigned) := by
        refine forall_congr' fun k => ?_
        by_cases heq : k = key
        · subst heq
          simpa [hvars] using hok
        · simp [hvars, heq, List.lookup_cons, beq_false_of_ne heq]
      refine ⟨fun h => ?_, fun h => ih.2 fun h' => h (hsettable.mp h')⟩
      obtain ⟨s', hs', hleaves⟩ := ih.1 (hsettable.mpr h)
      refine ⟨s', hs', fun k => ?_, fun k => ?_⟩
      · rw [hleaves.vars, hvars, Option.or_assoc]
        by_cases heq : k = key
        · simp [heq]
        · simp [heq, List.lookup_cons, beq_false_of_ne heq]
      · rw [hleaves.found, hfound, List.reverse_cons, List.lookup_append, Option.or_assoc]
        by_cases heq : k = key
        · simp [heq]
        · simp [heq, List.lookup_cons, beq_false_of_ne heq]
    · rw [Classical.not_imp] at hok
      rw [assign_crash hok.1 hok.2]
      refine ⟨fun h => absurd (h key value hok.1 (by simp)) hok.2, fun _ => rfl⟩

lemma foldlM_step {doc : List (Option (Str × Str))} {ls : List Str}
    (h : List.Forall₂ Says doc ls) (s : State) :
    ls.foldlM State.step s = doc.reduceOption.foldlM (fun s a => s.assign a.1 a.2) s := by
  induction h generalizing s with
  | nil => rfl
  | @cons l line doc ls hl _ ih =>
    rw [List.foldlM_cons, State.step, assignment_eq hl]
    cases l with
    | none =>
      rw [List.reduceOption_cons_of_none]
      exact ih s
    | some a =>
      rw [List.reduceOption_cons_of_some, List.foldlM_cons]
      exact congrArg (s.assign a.1 a.2 >>= ·) (funext ih)

/-! ## Writing one -/

/-- A variable whose name and value fit into a line. -/
structure Writable (a : Str × Str) : Prop where
  trimmed : trim a.1 = a.1
  named : a.1 ≠ []
  noEquals : '=' ∉ a.1
  nameLine : '\n' ∉ a.1
  valueLine : '\n' ∉ a.2

def renderLine (a : Str × Str) : Str :=
  "export ".toList ++ (a.1 ++ '=' :: '"' :: (a.2 ++ ['"']))

def render (assigned : List (Str × Str)) : Str := assigned.flatMap fun a => renderLine a ++ ['\n']

lemma renderLine_eq (a : Str × Str) : renderLine a =
    'e' :: ("xport ".toList ++ (a.1 ++ '=' :: '"' :: a.2) ++ ['"']) := by
  rw [List.append_assoc, List.append_assoc]
  rfl

lemma lf_notMem_renderLine {a : Str × Str} (hname : '\n' ∉ a.1) (hvalue : '\n' ∉ a.2) :
    '\n' ∉ renderLine a := by
  unfold renderLine
  rw [List.mem_append, not_or]
  refine ⟨by decide, ?_⟩
  simp [hname, hvalue]

lemma says_renderLine {a : Str × Str} (h : Writable a) : Says (some a) (renderLine a) := by
  have hline : trim (renderLine a) = renderLine a := by
    rw [renderLine_eq]
    exact trim_of_ends (by decide) (by decide) _
  have hraw : trim ('"' :: (a.2 ++ ['"'])) = '"' :: (a.2 ++ ['"']) :=
    trim_of_ends (by decide) (by decide) a.2
  have hname : trim a.1 ≠ [] := by
    rw [h.trimmed]
    exact h.named
  have hvalue : Spells (trim ('"' :: (a.2 ++ ['"']))) a.2 := by
    rw [hraw]
    exact .quoted (.inl rfl)
  have hsays := Says.assign (.exported hline) h.noEquals hname hvalue
  rwa [h.trimmed] at hsays

lemma written_render {assigned : List (Str × Str)} (h : ∀ a ∈ assigned, Writable a) :
    Written (assigned.map some) (render assigned) := by
  refine ⟨assigned.map renderLine, ?_, ?_⟩
  · induction assigned with
    | nil => exact .nil
    | cons a assigned ih =>
      have ha := h a (by simp)
      have hlf : '\n' ∉ renderLine a := lf_notMem_renderLine ha.nameLine ha.valueLine
      have hcr : (renderLine a).getLast? ≠ some '\r' := by
        rw [renderLine_eq, ← List.cons_append, List.getLast?_concat]
        simp
      have hlined := Lined.lf hlf hcr (ih fun b hb => h b (List.mem_cons_of_mem _ hb))
      rw [render, List.flatMap_cons, List.append_assoc]
      exact hlined
  · rw [List.forall₂_map_left_iff, List.forall₂_map_right_iff, List.forall₂_same]
    exact fun a ha => says_renderLine (h a ha)

lemma loadDotenv_eq {doc : List (Option (Str × Str))} {text : Str} (h : Written doc text)
    (vars : Environment) : loadDotenv vars (some (utf8Bytes text)) =
      doc.reduceOption.foldlM (fun s a => s.assign a.1 a.2) ⟨fun _ => none, vars⟩ := by
  obtain ⟨ls, hls, hdoc⟩ := h
  rw [← foldlM_step hdoc, ← hls.lines_eq, loadDotenv, Option.bind_some]
  change (match Utf8.decode (Utf8.encode text) with | none => _ | some content => _) = _
  rw [Utf8.decode_encode]

/-- **A `.env` file adds to the environment.**  Every text says something; what is written as
assignments says them.  Whatever a text says, existing variables stay, any other has its first
value in the text, and what is returned has the last one; but if a variable that is to be set has
a NUL, the program panics. -/
theorem loadDotenv_exact (vars : Environment) :
    (∀ text, ∃ doc, Written doc text) ∧
    (∀ assigned, (∀ a ∈ assigned, Writable a) → Written (assigned.map some) (render assigned)) ∧
    ∀ doc text, Written doc text →
      (Settable vars doc.reduceOption → ∃ s, loadDotenv vars (some (utf8Bytes text)) = .ok s ∧
        Leaves vars (fun _ => none) doc.reduceOption s) ∧
      (¬Settable vars doc.reduceOption → loadDotenv vars (some (utf8Bytes text)) = crash) := by
  refine ⟨exists_written, fun _ => written_render, fun doc text h => ?_⟩
  rw [loadDotenv_eq h]
  exact foldlM_assign (s := ⟨fun _ => none, vars⟩) doc.reduceOption

end Dotenv

/-! ## The settings -/

/-- The components of an absolute path. -/
def absoluteParts (path : Str) : PathBuf := (path.splitOn '/').filter fun p => p ≠ [] ∧ p ≠ ['.']

/-- A path as it is meant in a working directory. -/
def pathFrom (cwd : PathBuf) (path : Str) : PathBuf :=
  if path.head? = some '/' then absoluteParts path else cwd ++ absoluteParts path

/-- Join a configured relative path onto a root one component at a time. -/
def joinRelative (root : PathBuf) (relative : Str) : PathBuf :=
  if relative.head? = some '/' then absoluteParts relative else root ++ nameParts relative

/-- Where links lead to, if that can be told. -/
def resolvePath (fs : FileSystem) (path : PathBuf) : PathBuf := (fs.canonicalize path).getD path

structure Settings extends Config where
  port : ℕ
  bind : Str
  clientPublicUrl : Option Str
  nodeEnv : Str
  isProd : Bool
  enableWsproxy : Bool
  wsAllowedTargets : List Str
  cacheWarmUp : Bool
  cacheWarmUpLimit : ℕ
  clientRespath : Str
  clientDataini : Str
  /-- Override GRF filename decoding instead of detecting it. -/
  grfFilenameEncoding : Option FilenameEncoding
  appProxy : Option (AppProxy.Prefix × Str)
  webServerProxy : Option Str

namespace Settings

def defaultWsTargets : List Str :=
  ["127.0.0.1:6900", "127.0.0.1:6121", "127.0.0.1:5121"].map String.toList

/-- The entries of a list between commas. -/
def targetsOf (raw : Str) : List Str := ((raw.splitOn ',').map trim).filter fun s => s ≠ []

def encodingOf (raw : Option Str) : Option FilenameEncoding :=
  if raw = some "cp949".toList ∨ raw = some "euc-kr".toList then some .cp949
  else if raw = some "utf-8".toList ∨ raw = some "utf8".toList then some .utf8
  else none

def fromEnv (fs : FileSystem) (cwd : PathBuf) (vars : Environment) : Settings :=
  let root := resolvePath fs (((vars.env "SERVER_ROOT".toList).map (pathFrom cwd)).getD cwd)
  let nodeEnv := (vars.env "NODE_ENV".toList).getD "development".toList
  let directory (key : Str) : Option PathBuf :=
    (vars.env key).map fun raw => resolvePath fs (joinRelative root raw)
  { root := root
    enableStaticServe := vars.envBool "ENABLE_STATIC_SERVE".toList false
    enableCompression := vars.envBool "ENABLE_COMPRESSION".toList true
    robrowserPath := resolvePath fs (joinRelative root
      ((vars.env "ROBROWSER_PATH".toList).getD "../roBrowserLegacy".toList))
    dataOverridePath := directory "DATA_OVERRIDE_PATH".toList
    bgmPath := directory "BGM_PATH".toList
    aiPath := directory "AI_PATH".toList
    cacheMaxFiles := vars.envUsize "CACHE_MAX_FILES".toList 5000
    cacheMaxMemoryMb := vars.envUsize "CACHE_MAX_MEMORY_MB".toList 1024
    clientEnablesearch := vars.envBool "CLIENT_ENABLESEARCH".toList true
    clientAutoextract := vars.clientAutoextract
    remoteGrfData := vars.remoteGrfData
    autoextract_off := Environment.clientAutoextract_off
    port := ((vars.env "PORT".toList).bind fun v =>
      Numerals.parseUnsigned (2 ^ 16) (trim v)).getD 3338
    bind := (vars.env "HOST".toList).getD "0.0.0.0".toList
    clientPublicUrl := vars.env "CLIENT_PUBLIC_URL".toList
    nodeEnv := nodeEnv
    isProd := nodeEnv = "production".toList
    enableWsproxy := vars.envBool "ENABLE_WSPROXY".toList false
    wsAllowedTargets := ((vars.env "WS_ALLOWED_TARGETS".toList).map targetsOf).getD defaultWsTargets
    cacheWarmUp := vars.envBool "CACHE_WARM_UP".toList false
    cacheWarmUpLimit := vars.envUsize "CACHE_WARM_UP_LIMIT".toList 500
    clientRespath := (vars.env "CLIENT_RESPATH".toList).getD "resources/".toList
    clientDataini := (vars.env "CLIENT_DATAINI".toList).getD "DATA.INI".toList
    grfFilenameEncoding := encodingOf (vars.env "GRF_FILENAME_ENCODING".toList)
    appProxy := AppProxy.appProxyOf (vars.env "APP_PROXY_PREFIX".toList)
      (vars.env "APP_PROXY_TARGET".toList)
    webServerProxy := AppProxy.webServerProxyOf (vars.env "WEB_SERVER_TARGET".toList) }

variable (cfg : Settings)

def resourcesDir : PathBuf := joinRelative cfg.root cfg.clientRespath

def dataIniPath : PathBuf := joinRelative cfg.resourcesDir cfg.clientDataini

end Settings

end RemoteClient

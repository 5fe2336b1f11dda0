/-
# Computations that may stop before they return

A function of the program returns a value, returns an error of its own, panics (an index
out of range, a subtraction below zero, an addition past 64 bits) or never returns.
`Exec` keeps the four outcomes apart, so that "this never panics" is a statement about
the model, and the checked operations below are the places where a panic can start.

`Ends x P` is the rule the rest of the development reasons with: `x` returns a value with
`P`, or it returns an error; a panic and an endless loop are excluded.
-/
import Mathlib.Data.List.Basic
import Mathlib.Algebra.Group.Nat.Defs

namespace RemoteClient

/-- How a computation stops without a value. -/
inductive Stop (ε : Type) where
  /-- An error the program returns. -/
  | err (e : ε)
  /-- A panic. -/
  | panic
  /-- A loop that never ends. -/
  | hang
deriving DecidableEq, Repr

/-- A computation that returns a value of `α` or stops. -/
abbrev Exec (ε α : Type) : Type := Except (Stop ε) α

namespace Exec

variable {ε δ α β : Type}

/-- Return the error `e`. -/
def fail (e : ε) : Exec ε α := .error (.err e)

/-- Panic. -/
def crash : Exec ε α := .error .panic

/-- Loop forever. -/
def spin : Exec ε α := .error .hang

/-- Replace the error of a computation, as `map_err` does. -/
def mapErr (f : ε → δ) : Exec ε α → Exec δ α
  | .ok a => .ok a
  | .error (.err e) => .error (.err (f e))
  | .error .panic => .error .panic
  | .error .hang => .error .hang

/-- A computation without errors of its own, within one that has some. -/
def lift (x : Exec Empty α) : Exec ε α := mapErr Empty.elim x

/-- The computation returns a value with `P`, or returns an error. -/
def Ends (x : Exec ε α) (P : α → Prop) : Prop :=
  match x with
  | .ok a => P a
  | .error (.err _) => True
  | .error .panic => False
  | .error .hang => False

/-! ## The rules of `Ends` -/

@[simp] lemma ends_ok {a : α} {P : α → Prop} : Ends (.ok a : Exec ε α) P ↔ P a := Iff.rfl

@[simp] lemma ends_pure {a : α} {P : α → Prop} : Ends (pure a : Exec ε α) P ↔ P a := Iff.rfl

@[simp] lemma ends_fail {e : ε} {P : α → Prop} : Ends (fail e : Exec ε α) P := trivial

/-- The rule of sequencing: the second computation is reasoned about at the values the
first one can return. -/
@[simp] lemma ends_bind {x : Exec ε α} {f : α → Exec ε β} {P : β → Prop} :
    Ends (x >>= f) P ↔ Ends x fun a => Ends (f a) P := by
  match x with
  | .ok a => exact Iff.rfl
  | .error (.err e) => exact Iff.rfl
  | .error .panic => exact Iff.rfl
  | .error .hang => exact Iff.rfl

lemma Ends.mono {x : Exec ε α} {P Q : α → Prop} (h : Ends x P) (hPQ : ∀ a, P a → Q a) :
    Ends x Q := by
  match x with
  | .ok a => exact hPQ a h
  | .error (.err e) => trivial
  | .error .panic => exact h
  | .error .hang => exact h

lemma Ends.of_eq_ok {x : Exec ε α} {a : α} {P : α → Prop} (h : x = .ok a) (hP : P a) :
    Ends x P := by
  rw [h]; exact hP

/-- What a computation that ends returns satisfies its post-condition. -/
lemma Ends.post {x : Exec ε α} {a : α} {P : α → Prop} (h : Ends x P) (hx : x = .ok a) : P a := by
  rw [hx] at h; exact h

/-- A computation that ends and returns no value returns an error. -/
lemma Ends.fails {x : Exec ε α} {P : α → Prop} (h : Ends x P) (hx : ∀ a, x ≠ .ok a) :
    ∃ e, x = fail e := by
  match x with
  | .ok a => exact absurd rfl (hx a)
  | .error (.err e) => exact ⟨e, rfl⟩
  | .error .panic => exact absurd h id
  | .error .hang => exact absurd h id

@[simp] lemma ends_mapErr {f : ε → δ} {x : Exec ε α} {P : α → Prop} :
    Ends (mapErr f x) P ↔ Ends x P := by
  match x with
  | .ok a => exact Iff.rfl
  | .error (.err e) => exact Iff.rfl
  | .error .panic => exact Iff.rfl
  | .error .hang => exact Iff.rfl

@[simp] lemma ends_lift {x : Exec Empty α} {P : α → Prop} :
    Ends (lift x : Exec ε α) P ↔ Ends x P := ends_mapErr

@[simp] lemma lift_ok {a : α} : (lift (.ok a) : Exec ε α) = .ok a := rfl

lemma lift_eq_ok {x : Exec Empty α} {a : α} : (lift x : Exec ε α) = .ok a ↔ x = .ok a := by
  match x with
  | .ok b => simp
  | .error .panic => simp [lift, mapErr]
  | .error .hang => simp [lift, mapErr]

@[simp] lemma ok_bind {a : α} {f : α → Exec ε β} : ((.ok a : Exec ε α) >>= f) = f a := rfl

lemma toOption_eq_some {x : Exec ε α} {a : α} (h : x.toOption = some a) :
    x = .ok a := by
  match x with
  | .ok b => exact congrArg Except.ok (Option.some.inj h)
  | .error _ => exact absurd h (by simp [Except.toOption])

/-- The first part of a sequence that returned a value returned one. -/
lemma bind_eq_ok {x : Exec ε α} {f : α → Exec ε β} {b : β} :
    (x >>= f) = .ok b ↔ ∃ a, x = .ok a ∧ f a = .ok b := by
  match x with
  | .ok a => simp
  | .error s =>
    constructor
    · intro h; exact absurd h (by simp [bind, Except.bind])
    · rintro ⟨a, ha, -⟩; exact absurd ha (by simp)

/-- A choice that returned a value, with what follows written into its branches. -/
lemma ite_bind_eq {c : Prop} [Decidable c] {x y : Exec ε α} {a : α}
    (h : (if c then x else y) = .ok a) (f : α → Exec ε β) :
    (if c then x >>= f else y >>= f) = f a := by
  by_cases hc : c
  · rw [if_pos hc] at h ⊢
    rw [h, ok_bind]
  · rw [if_neg hc] at h ⊢
    rw [h, ok_bind]

/-- A loop whose every turn returns a value returns one. -/
lemma foldlM_ok {l : List α} {f : β → α → Exec ε β} (hf : ∀ a ∈ l, ∀ b, ∃ c, f b a = .ok c)
    (b : β) : ∃ c, l.foldlM f b = .ok c := by
  induction l generalizing b with
  | nil => exact ⟨b, rfl⟩
  | cons a l ih =>
    obtain ⟨c, hc⟩ := hf a (by simp) b
    rw [List.foldlM_cons, hc, ok_bind]
    exact ih (fun a' ha' => hf a' (by simp [ha'])) c

/-- A map whose every call returns a value returns the list of them. -/
lemma mapM_map_ok {γ : Type} {l : List γ} {e : γ → α} {f : α → Exec ε β} {g : γ → β}
    (hf : ∀ x ∈ l, f (e x) = .ok (g x)) : (l.map e).mapM f = .ok (l.map g) := by
  induction l with
  | nil => rfl
  | cons x l ih =>
    rw [List.map_cons, List.mapM_cons, hf x (by simp), ok_bind,
      ih fun y hy => hf y (by simp [hy]), ok_bind]
    rfl

/-- A map whose every call ends keeps the length. -/
lemma ends_mapM {l : List α} {f : α → Exec ε β} (hf : ∀ a ∈ l, Ends (f a) fun _ => True) :
    Ends (l.mapM f) fun out => out.length = l.length := by
  induction l with
  | nil => exact rfl
  | cons a l ih =>
    rw [List.mapM_cons, ends_bind]
    refine (hf a (by simp)).mono fun b _ => ?_
    rw [ends_bind]
    refine (ih fun a' ha' => hf a' (by simp [ha'])).mono fun out hout => ?_
    rw [ends_pure, List.length_cons, List.length_cons, hout]

/-- A loop whose every turn keeps an invariant ends with it. -/
lemma ends_foldlM {l : List α} {f : β → α → Exec ε β} {I : β → Prop}
    (hf : ∀ a ∈ l, ∀ b, I b → Ends (f b a) I) {b : β} (hb : I b) : Ends (l.foldlM f b) I := by
  induction l generalizing b with
  | nil => exact hb
  | cons a l ih =>
    rw [List.foldlM_cons, ends_bind]
    exact (hf a (by simp) b hb).mono fun c hc => ih (fun a' ha' => hf a' (by simp [ha'])) hc

/-! ## Sums over 64-bit words -/

/-- The number of values of a 64-bit word. -/
def wordSize : ℕ := 2 ^ 64

/-- `a + b` on `usize` or `u64`: past the last word it panics. -/
def add (a b : ℕ) : Exec ε ℕ := if a + b < wordSize then .ok (a + b) else crash

/-- `a - b` on `usize` or `u64`: below zero it panics. -/
def sub (a b : ℕ) : Exec ε ℕ := if b ≤ a then .ok (a - b) else crash

/-- `checked_add`. -/
def checkedAdd (a b : ℕ) : Option ℕ := if a + b < wordSize then some (a + b) else none

lemma add_eq {a b : ℕ} (h : a + b < 2 ^ 64) : (add a b : Exec ε ℕ) = .ok (a + b) := if_pos h

lemma sub_eq {a b : ℕ} (h : b ≤ a) : (sub a b : Exec ε ℕ) = .ok (a - b) := if_pos h

lemma add_eq_ok {a b c : ℕ} : (add a b : Exec ε ℕ) = .ok c ↔ a + b < wordSize ∧ c = a + b := by
  unfold add
  split
  · next h => simp [h, eq_comm]
  · next h => simp [h, crash]

lemma sub_eq_ok {a b c : ℕ} : (sub a b : Exec ε ℕ) = .ok c ↔ b ≤ a ∧ c = a - b := by
  unfold sub
  split
  · next h => simp [h, eq_comm]
  · next h => simp [h, crash]

lemma checkedAdd_eq {a b : ℕ} (h : a + b < 2 ^ 64) : checkedAdd a b = some (a + b) := if_pos h

lemma checkedAdd_eq_some {a b c : ℕ} :
    checkedAdd a b = some c ↔ a + b < wordSize ∧ c = a + b := by
  unfold checkedAdd
  split
  · next h => simp [h, eq_comm]
  · next h => simp [h]

/-! ## Indices and slices -/

/-- `l[i]`: out of range it panics. -/
def index (l : List α) (i : ℕ) : Exec ε α :=
  match l[i]? with
  | some a => .ok a
  | none => crash

/-- `&l[a..b]`: out of range, or with its ends the wrong way round, it panics. -/
def slice (l : List α) (a b : ℕ) : Exec ε (List α) :=
  if a ≤ b ∧ b ≤ l.length then .ok ((l.drop a).take (b - a)) else crash

lemma index_eq {l : List α} {i : ℕ} (h : i < l.length) :
    (index l i : Exec ε α) = .ok l[i] := by
  simp [index, h]

lemma index_eq_ok {l : List α} {i : ℕ} {a : α} :
    (index l i : Exec ε α) = .ok a ↔ l[i]? = some a := by
  unfold index
  cases l[i]? <;> simp [crash]

lemma index_eq_of_getElem? {l : List α} {i : ℕ} {a : α} (h : l[i]? = some a) :
    (index l i : Exec ε α) = .ok a := index_eq_ok.mpr h

lemma slice_eq {l : List α} {a b : ℕ} (hab : a ≤ b) (hb : b ≤ l.length) :
    (slice l a b : Exec ε (List α)) = .ok ((l.drop a).take (b - a)) := if_pos ⟨hab, hb⟩

lemma slice_eq_ok {l s : List α} {a b : ℕ} : (slice l a b : Exec ε (List α)) = .ok s ↔
    a ≤ b ∧ b ≤ l.length ∧ s = (l.drop a).take (b - a) := by
  unfold slice
  split
  · next h => simp [h.1, h.2, eq_comm]
  · next h =>
    constructor
    · intro hcrash; exact absurd hcrash (by simp [crash])
    · rintro ⟨hab, hb, -⟩; exact absurd ⟨hab, hb⟩ h

lemma ends_index {l : List α} {i : ℕ} {P : α → Prop} (h : i < l.length)
    (hP : ∀ a, P a) : Ends (index l i : Exec ε α) P := by
  rw [index_eq h]; exact hP _

/-- A slice within range has the length of its range. -/
lemma ends_slice {l : List α} {a b : ℕ} {P : List α → Prop} (hab : a ≤ b) (hb : b ≤ l.length)
    (hP : ∀ s : List α, s.length = b - a → P s) : Ends (slice l a b : Exec ε (List α)) P := by
  rw [slice_eq hab hb]
  refine hP _ ?_
  rw [List.length_take, List.length_drop]
  omega

end Exec
end RemoteClient

/-
# Interleaved programs

A program is a tree of atomic actions on a state it shares with others; between two of its
actions any of the others may act, and so may the environment.  `Reachable` are the pools of
programs that a machine can get into.

`Contract` is what everyone promises everyone else: an invariant of the shared state, a
preorder along which the state moves, and which actions are allowed.  A program is `Safe` when
it keeps the contract at each of its actions whatever the others do within it, and
`Reachable.safe` puts safe programs together.

Some answers oblige a program to an action.  A program is `Prompt` when that action is the
very next one.
-/
import RemoteClient.Lib.Exec

namespace RemoteClient

/-- A program that performs actions of `A`, each answered by an `R`, and ends with an `α`. -/
inductive Prog (A : Type) (R : A → Type) (α : Type) where
  | ret (a : α)
  | act (a : A) (next : R a → Prog A R α)

namespace Prog

variable {A : Type} {R : A → Type} {α β : Type}

/-- Run one program after the other. -/
def bind : Prog A R α → (α → Prog A R β) → Prog A R β
  | ret a, f => f a
  | act a next, f => act a fun r => bind (next r) f

instance : Monad (Prog A R) where
  pure := ret
  bind := bind

/-- One action. -/
def perform (a : A) : Prog A R (R a) := act a ret

@[simp] lemma pure_eq_ret (a : α) : (pure a : Prog A R α) = ret a := rfl

@[simp] lemma ret_bind (a : α) (f : α → Prog A R β) : (ret a >>= f) = f a := rfl

@[simp] lemma act_bind (a : A) (next : R a → Prog A R α) (f : α → Prog A R β) :
    (act a next >>= f) = act a fun r => next r >>= f := rfl

@[simp] lemma perform_bind (a : A) (f : R a → Prog A R β) : (perform a >>= f) = act a f := rfl

@[simp] lemma map_eq_bind (f : α → β) (p : Prog A R α) : f <$> p = p >>= fun a => ret (f a) := rfl

/-- What a program returns when every action is answered by a fixed function. -/
def eval (answer : (a : A) → R a) : Prog A R α → α
  | ret a => a
  | act a next => eval answer (next (answer a))

@[simp] lemma eval_act (answer : (a : A) → R a) (a : A) (next : R a → Prog A R α) :
    (act a next).eval answer = (next (answer a)).eval answer := rfl

@[simp] lemma eval_bind (answer : (a : A) → R a) (p : Prog A R α) (f : α → Prog A R β) :
    (p >>= f).eval answer = (f (p.eval answer)).eval answer := by
  induction p with
  | ret a => rfl
  | act a next ih => exact ih (answer a)

/-- The actions a program takes when they are answered by a fixed function. -/
def actions (answer : (a : A) → R a) : Prog A R α → List A
  | ret _ => []
  | act a next => a :: actions answer (next (answer a))

lemma actions_bind (answer : (a : A) → R a) (p : Prog A R α) (f : α → Prog A R β) :
    (p >>= f).actions answer = p.actions answer ++ (f (p.eval answer)).actions answer := by
  induction p with
  | ret a => rfl
  | act a next ih => exact congrArg (a :: ·) (ih (answer a))

/-- Every action is a `Q` and every result a `P`, whatever the answers are. -/
def All (Q : A → Prop) (P : α → Prop) : Prog A R α → Prop
  | ret a => P a
  | act a next => Q a ∧ ∀ r, All Q P (next r)

section All

variable {Q : A → Prop} {P : α → Prop}

@[simp] lemma all_ret {a : α} : (ret a : Prog A R α).All Q P ↔ P a := Iff.rfl

@[simp] lemma all_act {a : A} {next : R a → Prog A R α} :
    (act a next).All Q P ↔ Q a ∧ ∀ r, (next r).All Q P := Iff.rfl

lemma All.bind {P' : β → Prop} {p : Prog A R α} {f : α → Prog A R β} (h : p.All Q P)
    (hf : ∀ a, P a → (f a).All Q P') : (p >>= f).All Q P' := by
  induction p with
  | ret a => exact hf a h
  | act a next ih => exact ⟨h.1, fun r => ih r (h.2 r)⟩

lemma all_true (p : Prog A R α) : p.All (fun _ => True) fun _ => True := by
  induction p with
  | ret a => trivial
  | act a next ih => exact ⟨trivial, ih⟩

lemma All.mono {Q' : A → Prop} {P' : α → Prop} {p : Prog A R α} (h : p.All Q P)
    (hQ : ∀ a, Q a → Q' a) (hP : ∀ a, P a → P' a) : p.All Q' P' := by
  induction p with
  | ret a => exact hP a h
  | act a next ih => exact ⟨hQ a h.1, fun r => ih r (h.2 r)⟩

end All

/-- Every action is a `Q` and every result a `P`, as long as the answers are as `Ans` says. -/
def Within (Ans : (a : A) → R a → Prop) (Q : A → Prop) (P : α → Prop) : Prog A R α → Prop
  | ret a => P a
  | act a next => Q a ∧ ∀ r, Ans a r → Within Ans Q P (next r)

section Within

variable {Ans : (a : A) → R a → Prop} {Q : A → Prop} {P : α → Prop}

lemma Within.bind {P' : β → Prop} {p : Prog A R α} {f : α → Prog A R β} (h : p.Within Ans Q P)
    (hf : ∀ a, P a → (f a).Within Ans Q P') : (p >>= f).Within Ans Q P' := by
  induction p with
  | ret a => exact hf a h
  | act a next ih => exact ⟨h.1, fun r hr => ih r (h.2 r hr)⟩

lemma Within.mono {P' : α → Prop} {p : Prog A R α} (h : p.Within Ans Q P)
    (hP : ∀ a, P a → P' a) : p.Within Ans Q P' := by
  induction p with
  | ret a => exact hP a h
  | act a next ih => exact ⟨h.1, fun r hr => ih r (h.2 r hr)⟩

/-- The actions of a run whose answers are as expected. -/
lemma Within.actions {p : Prog A R α} (h : p.Within Ans Q P) {answer : (a : A) → R a}
    (hanswer : ∀ a, Ans a (answer a)) : ∀ a ∈ p.actions answer, Q a := by
  induction p with
  | ret a => exact fun a ha => absurd ha List.not_mem_nil
  | act a next ih =>
    intro b hb
    rcases List.mem_cons.mp hb with rfl | hb
    · exact h.1
    · exact ih (answer a) (h.2 _ (hanswer a)) b hb

lemma All.within {Q' : A → Prop} {P' : α → Prop} {p : Prog A R α} (h : p.All Q' P')
    (hQ : ∀ a, Q' a → Q a) (hP : ∀ a, P' a → P a) : p.Within Ans Q P := by
  induction p with
  | ret a => exact hP a h
  | act a next ih => exact ⟨hQ a h.1, fun r _ => ih r (h.2 r)⟩

end Within

section Exec

variable {σ : Type} (perform : σ → (a : A) → Exec Empty (R a × σ))

/-- Run a program alone from a state. -/
def exec : Prog A R α → σ → Exec Empty (α × σ)
  | ret a, s => .ok (a, s)
  | act a next, s => do
    let (r, s) ← perform s a
    exec (next r) s

variable {perform} {Ans : (a : A) → R a → Prop} {Q : A → Prop} {P : α → Prop} {inv : σ → Prop}

lemma exec_bind (p : Prog A R α) (f : α → Prog A R β) (s : σ) :
    (p >>= f).exec perform s = p.exec perform s >>= fun x => (f x.1).exec perform x.2 := by
  induction p generalizing s with
  | ret a => rfl
  | act a next ih =>
    change (perform s a >>= fun x => (next x.1 >>= f).exec perform x.2) =
      (perform s a >>= fun x => (next x.1).exec perform x.2) >>= _
    rw [bind_assoc]
    exact congrArg (perform s a >>= ·) (funext fun x => ih x.1 x.2)

/-- A program whose actions all succeed, keep an invariant and are answered as it expects. -/
lemma Within.exec {p : Prog A R α} (h : p.Within Ans Q P)
    (hperform : ∀ s a, inv s → Q a → ∃ r s', perform s a = .ok (r, s') ∧ Ans a r ∧ inv s')
    {s : σ} (hs : inv s) : ∃ a s', p.exec perform s = .ok (a, s') ∧ P a ∧ inv s' := by
  induction p generalizing s with
  | ret a => exact ⟨a, s, rfl, h, hs⟩
  | act a next ih =>
    obtain ⟨r, s₁, hok, hr, hs₁⟩ := hperform s a hs h.1
    obtain ⟨b, s₂, hrest, hb, hs₂⟩ := ih r (h.2 r hr) hs₁
    refine ⟨b, s₂, ?_, hb, hs₂⟩
    rw [Prog.exec, hok, Exec.ok_bind]
    exact hrest

end Exec

/-- The program may end with a result. -/
def Returns (result : α) : Prog A R α → Prop
  | ret a => a = result
  | act _ next => ∃ r, Returns result (next r)

@[simp] lemma returns_bind {p : Prog A R α} {f : α → Prog A R β} {result : β} :
    (p >>= f).Returns result ↔ ∃ a, p.Returns a ∧ (f a).Returns result := by
  induction p with
  | ret a =>
    constructor
    · exact fun h => ⟨a, rfl, h⟩
    · rintro ⟨a', rfl, h⟩
      exact h
  | act a next ih =>
    constructor
    · rintro ⟨r, h⟩
      obtain ⟨b, hb, hf⟩ := (ih r).mp h
      exact ⟨b, ⟨r, hb⟩, hf⟩
    · rintro ⟨b, ⟨r, hb⟩, hf⟩
      exact ⟨r, (ih r).mpr ⟨b, hb, hf⟩⟩

lemma returns_eval (answer : (a : A) → R a) (p : Prog A R α) :
    p.Returns (p.eval answer) := by
  induction p with
  | ret a => exact rfl
  | act a next ih => exact ⟨answer a, ih _⟩

lemma All.returns {Q : A → Prop} {P : α → Prop} {p : Prog A R α} (h : p.All Q P) {result : α}
    (hp : p.Returns result) : P result := by
  induction p with
  | ret a => exact hp ▸ h
  | act a next ih =>
    obtain ⟨r, hr⟩ := hp
    exact ih r (h.2 r) hr

end Prog

/-- A machine: what the actions do to the shared state, what the environment may do to it,
and the program of each job. -/
structure Machine (A : Type) (R : A → Type) (σ L α : Type) where
  perform : σ → (a : A) → Exec Empty (R a × σ)
  env : σ → σ → Prop
  main : L → Prog A R α

/-- The shared state, and every job with what is left of its program. -/
structure Pool (A : Type) (R : A → Type) (σ L α : Type) where
  state : σ
  threads : List (L × Prog A R α)

variable {A : Type} {R : A → Type} {σ L α β : Type}

namespace Machine

variable (m : Machine A R σ L α)

/-- One step: a job arrives, a job performs its next action, or the environment acts. -/
inductive Step : Pool A R σ L α → Pool A R σ L α → Prop
  | arrive (s : σ) (threads : List (L × Prog A R α)) (job : L) :
    Step ⟨s, threads⟩ ⟨s, threads ++ [(job, m.main job)]⟩
  | turn {s s' : σ} {a : A} {r : R a} {job : L} {next : R a → Prog A R α}
      {pre post : List (L × Prog A R α)} (h : m.perform s a = .ok (r, s')) :
    Step ⟨s, pre ++ (job, .act a next) :: post⟩ ⟨s', pre ++ (job, next r) :: post⟩
  | env {s s' : σ} {threads : List (L × Prog A R α)} (h : m.env s s') :
    Step ⟨s, threads⟩ ⟨s', threads⟩

/-- The pools that are reached from a state without jobs. -/
inductive Reachable (start : σ) : Pool A R σ L α → Prop
  | start : Reachable start ⟨start, []⟩
  | step {p p' : Pool A R σ L α} (h : Reachable start p) (hstep : m.Step p p') :
    Reachable start p'

end Machine

/-- A job takes its turn. -/
lemma Machine.Reachable.turn {m : Machine A R σ L α} {start s s' : σ} {a : A} {r : R a} {job : L}
    {next : R a → Prog A R α} (pre post : List (L × Prog A R α))
    (h : m.Reachable start ⟨s, pre ++ (job, .act a next) :: post⟩)
    (hperform : m.perform s a = .ok (r, s')) :
    m.Reachable start ⟨s', pre ++ (job, next r) :: post⟩ :=
  h.step (.turn hperform)

/-! ## One job after the other -/

/-- Actions are performed one after the other, with fixed answers. -/
inductive Serial (perform : σ → (a : A) → Exec Empty (R a × σ)) (answer : (a : A) → R a) :
    List A → σ → σ → Prop
  | nil (s : σ) : Serial perform answer [] s s
  | cons {s s' s'' : σ} {a : A} {actions : List A} (h : perform s a = .ok (answer a, s'))
      (hrest : Serial perform answer actions s' s'') : Serial perform answer (a :: actions) s s''

section Serial

variable {m : Machine A R σ L α} {start s s' : σ} {threads : List (L × Prog A R α)} {job : L}
  {answer : (a : A) → R a}

lemma Machine.Reachable.finish {p : Prog A R α}
    (h : m.Reachable start ⟨s, threads ++ [(job, p)]⟩)
    (hserial : Serial m.perform answer (p.actions answer) s s') :
    m.Reachable start ⟨s', threads ++ [(job, .ret (p.eval answer))]⟩ := by
  induction p generalizing s with
  | ret a =>
    cases hserial
    exact h
  | act a next ih =>
    cases hserial with
    | cons hperform hrest => exact ih (answer a) (h.step (.turn hperform)) hrest

/-- A job may run on its own from beginning to end. -/
lemma Machine.Reachable.serial (h : m.Reachable start ⟨s, threads⟩)
    (hserial : Serial m.perform answer ((m.main job).actions answer) s s') :
    m.Reachable start ⟨s', threads ++ [(job, .ret ((m.main job).eval answer))]⟩ :=
  (h.step (.arrive s threads job)).finish hserial

end Serial

/-- What all jobs and the environment promise each other. -/
structure Contract (m : Machine A R σ L α) where
  inv : σ → Prop
  rel : σ → σ → Prop
  may : σ → A → Prop
  refl : ∀ s, rel s s
  trans : ∀ {s t u}, rel s t → rel t u → rel s u
  env : ∀ {s s'}, inv s → m.env s s' → inv s' ∧ rel s s'

namespace Contract

variable {m : Machine A R σ L α} (c : Contract m)

/-- A program keeps the contract at each action, and ends with `Post`. -/
def Safe (Post : β → σ → Prop) : Prog A R β → σ → Prop
  | .ret b, s => Post b s
  | .act a next, s => ∀ s₁, c.rel s s₁ → c.inv s₁ → c.may s₁ a ∧
      ∀ r s₂, m.perform s₁ a = .ok (r, s₂) → c.inv s₂ ∧ c.rel s₁ s₂ ∧ Safe Post (next r) s₂

/-- A statement that stays true as the state moves on. -/
def Stable (Post : β → σ → Prop) : Prop := ∀ b {s s'}, c.rel s s' → Post b s → Post b s'

variable {c} {Post Q : β → σ → Prop} {γ : Type}

@[simp] lemma safe_ret {b : β} {s : σ} : c.Safe Post (.ret b) s ↔ Post b s := Iff.rfl

/-- What others do in between does not make a program unsafe. -/
lemma Safe.stable (hPost : c.Stable Post) {p : Prog A R β} {s s' : σ} (h : c.Safe Post p s)
    (hrel : c.rel s s') : c.Safe Post p s' := by
  cases p with
  | ret b => exact hPost b hrel h
  | act a next => exact fun s₁ hrel₁ => h s₁ (c.trans hrel hrel₁)

lemma Safe.mono {p : Prog A R β} {s : σ} (h : c.Safe Q p s)
    (hQ : ∀ b s', c.rel s s' → Q b s' → Post b s') : c.Safe Post p s := by
  induction p generalizing s with
  | ret b => exact hQ b s (c.refl s) h
  | act a next ih =>
    intro s₁ hrel hinv
    obtain ⟨hmay, hstep⟩ := h s₁ hrel hinv
    refine ⟨hmay, fun r s₂ hperform => ?_⟩
    obtain ⟨hinv₂, hrel₂, hnext⟩ := hstep r s₂ hperform
    exact ⟨hinv₂, hrel₂, ih r hnext fun b s' hs' => hQ b s' (c.trans hrel (c.trans hrel₂ hs'))⟩

/-- The rule of sequencing. -/
lemma Safe.bind {p : Prog A R γ} {f : γ → Prog A R β} {Q : γ → σ → Prop} {s : σ}
    (h : c.Safe Q p s) (hf : ∀ b s', c.rel s s' → Q b s' → c.Safe Post (f b) s') :
    c.Safe Post (p >>= f) s := by
  induction p generalizing s with
  | ret b => exact hf b s (c.refl s) h
  | act a next ih =>
    intro s₁ hrel hinv
    obtain ⟨hmay, hstep⟩ := h s₁ hrel hinv
    refine ⟨hmay, fun r s₂ hperform => ?_⟩
    obtain ⟨hinv₂, hrel₂, hnext⟩ := hstep r s₂ hperform
    exact ⟨hinv₂, hrel₂, ih r hnext fun b s' hs' => hf b s' (c.trans hrel (c.trans hrel₂ hs'))⟩

/-- A safe program that runs alone ends as it promises. -/
lemma Safe.exec {p : Prog A R β} {s s' : σ} {b : β} (h : c.Safe Post p s) (hinv : c.inv s)
    (hexec : p.exec m.perform s = .ok (b, s')) : Post b s' ∧ c.inv s' ∧ c.rel s s' := by
  induction p generalizing s with
  | ret a =>
    obtain ⟨rfl, rfl⟩ := Prod.mk.inj (Except.ok.inj hexec)
    exact ⟨h, hinv, c.refl s⟩
  | act a next ih =>
    obtain ⟨⟨r, s₁⟩, hperform, hrest⟩ := Exec.bind_eq_ok.mp hexec
    obtain ⟨hinv₁, hrel₁, hnext⟩ := (h s (c.refl s) hinv).2 r s₁ hperform
    obtain ⟨hpost, hinv', hrel⟩ := ih r hnext hinv₁ hrest
    exact ⟨hpost, hinv', c.trans hrel₁ hrel⟩

/-- Two contracts at once. -/
def both (c d : Contract m) : Contract m where
  inv s := c.inv s ∧ d.inv s
  rel s s' := c.rel s s' ∧ d.rel s s'
  may s a := c.may s a ∧ d.may s a
  refl := fun s => ⟨c.refl s, d.refl s⟩
  trans := fun h h' => ⟨c.trans h.1 h'.1, d.trans h.2 h'.2⟩
  env := by
    intro s s' h henv
    obtain ⟨hinv, hrel⟩ := c.env h.1 henv
    obtain ⟨hinv', hrel'⟩ := d.env h.2 henv
    exact ⟨⟨hinv, hinv'⟩, hrel, hrel'⟩

/-- A program that keeps either contract among programs that keep it keeps both among programs
that keep both. -/
lemma Safe.both {d : Contract m} {p : Prog A R β} {s : σ} (h : c.Safe Post p s)
    (h' : d.Safe Q p s) : (c.both d).Safe (fun b s => Post b s ∧ Q b s) p s := by
  induction p generalizing s with
  | ret b => exact ⟨h, h'⟩
  | act a next ih =>
    intro s₁ hrel hinv
    obtain ⟨hmay, hstep⟩ := h s₁ hrel.1 hinv.1
    obtain ⟨hmay', hstep'⟩ := h' s₁ hrel.2 hinv.2
    refine ⟨⟨hmay, hmay'⟩, fun r s₂ hperform => ?_⟩
    obtain ⟨hinv₂, hrel₂, hnext⟩ := hstep r s₂ hperform
    obtain ⟨hinv₂', hrel₂', hnext'⟩ := hstep' r s₂ hperform
    exact ⟨⟨hinv₂, hinv₂'⟩, ⟨hrel₂, hrel₂'⟩, ih r hnext hnext'⟩

/-- The same contract among programs whose actions all succeed. -/
def live (c : Contract m) : Contract m where
  inv := c.inv
  rel := c.rel
  may s a := c.may s a ∧ ∃ r s', m.perform s a = .ok (r, s')
  refl := c.refl
  trans := c.trans
  env := c.env

/-- A safe program is live if the actions it takes succeed wherever they are allowed. -/
lemma Safe.live {Q : A → Prop} {P : β → Prop} {p : Prog A R β} {s : σ} (h : c.Safe Post p s)
    (hall : p.All Q P) (hQ : ∀ a, Q a → ∀ s, c.inv s → c.may s a →
      ∃ r s', m.perform s a = .ok (r, s')) : c.live.Safe Post p s := by
  induction p generalizing s with
  | ret b => exact h
  | act a next ih =>
    intro s₁ hrel hinv
    obtain ⟨hmay, hstep⟩ := h s₁ hrel hinv
    refine ⟨⟨hmay, hQ a hall.1 s₁ hinv hmay⟩, fun r s₂ hperform => ?_⟩
    obtain ⟨hinv₂, hrel₂, hnext⟩ := hstep r s₂ hperform
    exact ⟨hinv₂, hrel₂, ih r hnext (hall.2 r)⟩

/-- A program whose actions keep the contract from wherever they start. -/
lemma Safe.of_all {Q : A → Prop} {P : β → Prop} {p : Prog A R β} {s : σ}
    (hQ : ∀ a, Q a → ∀ s, c.inv s → c.may s a ∧
      ∀ r s', m.perform s a = .ok (r, s') → c.inv s' ∧ c.rel s s')
    (h : p.All Q P) : c.Safe (fun b _ => P b) p s := by
  induction p generalizing s with
  | ret b => exact h
  | act a next ih =>
    intro s₁ _ hinv
    obtain ⟨hmay, hstep⟩ := hQ a h.1 s₁ hinv
    refine ⟨hmay, fun r s₂ hperform => ?_⟩
    obtain ⟨hinv₂, hrel₂⟩ := hstep r s₂ hperform
    exact ⟨hinv₂, hrel₂, ih r (h.2 r)⟩

/-- A program whose actions keep the contract and are answered as it expects. -/
lemma Safe.of_within {Ans : (a : A) → R a → Prop} {Q : A → Prop} {P : β → Prop} {p : Prog A R β}
    {s : σ} (hQ : ∀ a, Q a → ∀ s, c.inv s → c.may s a ∧
      ∀ r s', m.perform s a = .ok (r, s') → c.inv s' ∧ c.rel s s' ∧ Ans a r)
    (h : p.Within Ans Q P) : c.Safe (fun b _ => P b) p s := by
  induction p generalizing s with
  | ret b => exact h
  | act a next ih =>
    intro s₁ _ hinv
    obtain ⟨hmay, hstep⟩ := hQ a h.1 s₁ hinv
    refine ⟨hmay, fun r s₂ hperform => ?_⟩
    obtain ⟨hinv₂, hrel₂, hr⟩ := hstep r s₂ hperform
    exact ⟨hinv₂, hrel₂, ih r (h.2 r hr)⟩

/-- A program that looks only at what the contract keeps in place returns what it would return
alone. -/
lemma Safe.of_eval {Q : A → Prop} {P : β → Prop} {answer : (a : A) → R a} {p : Prog A R β}
    {s : σ} (hQ : ∀ a, Q a → ∀ s, c.inv s → c.may s a ∧
      ∀ r s', m.perform s a = .ok (r, s') → c.inv s' ∧ c.rel s s' ∧ r = answer a)
    (h : p.All Q P) : c.Safe (fun b _ => b = p.eval answer) p s := by
  induction p generalizing s with
  | ret b => exact rfl
  | act a next ih =>
    intro s₁ _ hinv
    obtain ⟨hmay, hstep⟩ := hQ a h.1 s₁ hinv
    refine ⟨hmay, fun r s₂ hperform => ?_⟩
    obtain ⟨hinv₂, hrel₂, hr⟩ := hstep r s₂ hperform
    rw [Prog.eval_act, ← hr]
    exact ⟨hinv₂, hrel₂, ih r (h.2 r)⟩

end Contract

/-- **Safe jobs together are safe.**  In every pool that is reached the invariant holds, and
every job is safe for what it has left to do. -/
theorem Machine.Reachable.safe {m : Machine A R σ L α} (c : Contract m) {Post : L → α → σ → Prop}
    (hPost : ∀ job, c.Stable (Post job))
    (hmain : ∀ job s, c.inv s → c.Safe (Post job) (m.main job) s) {start : σ}
    (hstart : c.inv start) {p : Pool A R σ L α} (h : m.Reachable start p) :
    c.inv p.state ∧ ∀ t ∈ p.threads, c.Safe (Post t.1) t.2 p.state := by
  induction h with
  | start => exact ⟨hstart, by simp⟩
  | @step p p' _ hstep ih =>
    obtain ⟨hinv, hsafe⟩ := ih
    cases hstep with
    | arrive s threads job =>
      refine ⟨hinv, fun t ht => ?_⟩
      rcases List.mem_append.mp ht with ht | ht
      · exact hsafe t ht
      · rw [List.mem_singleton.mp ht]
        exact hmain job s hinv
    | @turn s s' a r job next pre post hperform =>
      have hturn := hsafe (job, .act a next) (by simp) s (c.refl s) hinv
      obtain ⟨hinv', hrel, hnext⟩ := hturn.2 r s' hperform
      refine ⟨hinv', fun t ht => ?_⟩
      have hother : t ∈ pre ++ (job, .act a next) :: post → c.Safe (Post t.1) t.2 s' :=
        fun hmem => (hsafe t hmem).stable (hPost t.1) hrel
      rcases List.mem_append.mp ht with ht | ht
      · exact hother (List.mem_append_left _ ht)
      · rcases List.mem_cons.mp ht with rfl | ht
        · exact hnext
        · exact hother (List.mem_append_right _ (List.mem_cons_of_mem _ ht))
    | @env s s' threads henv =>
      obtain ⟨hinv', hrel⟩ := c.env hinv henv
      exact ⟨hinv', fun t ht => (hsafe t ht).stable (hPost t.1) hrel⟩

/-- Every action that is about to be performed is allowed. -/
lemma Machine.Reachable.may {m : Machine A R σ L α} (c : Contract m) {Post : L → α → σ → Prop}
    (hPost : ∀ job, c.Stable (Post job))
    (hmain : ∀ job s, c.inv s → c.Safe (Post job) (m.main job) s) {start : σ}
    (hstart : c.inv start) {p : Pool A R σ L α} (h : m.Reachable start p) {job : L} {a : A}
    {next : R a → Prog A R α} (hact : (job, .act a next) ∈ p.threads) : c.may p.state a := by
  obtain ⟨hinv, hsafe⟩ := h.safe c hPost hmain hstart
  exact (hsafe _ hact p.state (c.refl p.state) hinv).1

/-- What a finished job returned. -/
lemma Machine.Reachable.post {m : Machine A R σ L α} (c : Contract m) {Post : L → α → σ → Prop}
    (hPost : ∀ job, c.Stable (Post job))
    (hmain : ∀ job s, c.inv s → c.Safe (Post job) (m.main job) s) {start : σ}
    (hstart : c.inv start) {p : Pool A R σ L α} (h : m.Reachable start p) {job : L} {a : α}
    (hret : (job, .ret a) ∈ p.threads) : Post job a p.state :=
  (h.safe c hPost hmain hstart).2 _ hret

/-- **No job is ever stuck.**  Among live programs, every job can be brought to its end while the
others wait. -/
theorem Machine.Reachable.ends {m : Machine A R σ L α} (c : Contract m) {Post : L → α → σ → Prop}
    (hPost : ∀ job, c.live.Stable (Post job))
    (hmain : ∀ job s, c.inv s → c.live.Safe (Post job) (m.main job) s) {start : σ}
    (hstart : c.inv start) {s : σ} {job : L} {p : Prog A R α}
    (pre post : List (L × Prog A R α)) (h : m.Reachable start ⟨s, pre ++ (job, p) :: post⟩) :
    ∃ a s', m.Reachable start ⟨s', pre ++ (job, .ret a) :: post⟩ := by
  induction p generalizing s with
  | ret a => exact ⟨a, s, h⟩
  | act a next ih =>
    have hmem : (job, Prog.act a next) ∈ pre ++ (job, .act a next) :: post := by simp
    obtain ⟨-, r, s', hperform⟩ := h.may c.live hPost hmain hstart hmem
    exact ih r (h.turn pre post hperform)

/-! ## An environment that keeps to a condition -/

/-- A machine whose environment only leads to states that meet a condition. -/
def Machine.keeping (m : Machine A R σ L α) (ok : σ → Prop) : Machine A R σ L α where
  perform := m.perform
  env s s' := m.env s s' ∧ ok s'
  main := m.main

section Keeping

variable {m : Machine A R σ L α} {ok : σ → Prop} {start : σ} {p : Pool A R σ L α}

/-- Its runs are runs of the machine. -/
lemma Machine.Reachable.of_keeping (h : (m.keeping ok).Reachable start p) :
    m.Reachable start p := by
  induction h with
  | start => exact .start
  | step _ hstep ih =>
    cases hstep with
    | arrive s threads job => exact ih.step (.arrive s threads job)
    | turn hperform => exact ih.step (.turn hperform)
    | env henv => exact ih.step (.env henv.1)

/-- A condition that always holds excludes no run. -/
lemma Machine.Reachable.keeping (h : m.Reachable start p) (hok : ∀ s, ok s) :
    (m.keeping ok).Reachable start p := by
  induction h with
  | start => exact .start
  | @step _ _ _ hstep ih =>
    cases hstep with
    | arrive s threads job => exact ih.step (.arrive s threads job)
    | turn hperform => exact ih.step (.turn hperform)
    | env henv => exact ih.step (.env ⟨henv, hok _⟩)

/-- What all promise each other they still promise. -/
def Contract.keeping (c : Contract m) (ok : σ → Prop) : Contract (m.keeping ok) where
  inv := c.inv
  rel := c.rel
  may := c.may
  refl := c.refl
  trans := c.trans
  env := fun hinv henv => c.env hinv henv.1

lemma Contract.Safe.keeping {c : Contract m} {Post : β → σ → Prop} {q : Prog A R β} {s : σ}
    (h : c.Safe Post q s) : (c.keeping ok).Safe Post q s := by
  induction q generalizing s with
  | ret b => exact h
  | act a next ih =>
    intro s₁ hrel hinv
    obtain ⟨hmay, hstep⟩ := h s₁ hrel hinv
    refine ⟨hmay, fun r s₂ hperform => ?_⟩
    obtain ⟨hinv₂, hrel₂, hnext⟩ := hstep r s₂ hperform
    exact ⟨hinv₂, hrel₂, ih r hnext⟩

end Keeping

/-! ## Runs whose turns meet a condition -/

/-- Every action with a label. -/
def Prog.tag (l : L) : Prog A R α → Prog (L × A) (fun x => R x.2) α
  | .ret a => .ret a
  | .act a next => .act (l, a) fun r => (next r).tag l

lemma Prog.Within.tag {Ans : (a : A) → R a → Prop} {Q : A → Prop} {P : α → Prop} {p : Prog A R α}
    (h : p.Within Ans Q P) (l : L) :
    (p.tag l).Within (fun x r => Ans x.2 r) (fun x => x.1 = l ∧ Q x.2) P := by
  induction p with
  | ret a => exact h
  | act a next ih => exact ⟨⟨rfl, h.1⟩, fun r hr => ih r (h.2 r hr)⟩

/-- A machine whose jobs only take the turns that meet a condition on the state before. -/
def Machine.guarded (m : Machine A R σ L α) (ok : L → σ → A → Bool) :
    Machine (L × A) (fun x => R x.2) σ L α where
  perform s x := if ok x.1 s x.2 then m.perform s x.2 else .error .panic
  env := m.env
  main job := (m.main job).tag job

lemma Machine.perform_guarded {m : Machine A R σ L α} {ok : L → σ → A → Bool} {s s' : σ}
    {x : L × A} {r : R x.2} (h : (m.guarded ok).perform s x = .ok (r, s')) :
    ok x.1 s x.2 = true ∧ m.perform s x.2 = .ok (r, s') := by
  change (if ok x.1 s x.2 = true then m.perform s x.2 else .error .panic) = _ at h
  split at h
  · next hok => exact ⟨hok, h⟩
  · exact absurd h (by simp)

/-- A job takes a turn that meets the condition. -/
lemma Machine.Reachable.turn_guarded {m : Machine A R σ L α} {ok : L → σ → A → Bool}
    {start s s' : σ} {a : A} {r : R a} {job : L} {next : R a → Prog A R α}
    (pre post : List (L × Prog (L × A) (fun x => R x.2) α))
    (h : (m.guarded ok).Reachable start ⟨s, pre ++ (job, (Prog.act a next).tag job) :: post⟩)
    (hok : ok job s a = true) (hperform : m.perform s a = .ok (r, s')) :
    (m.guarded ok).Reachable start ⟨s', pre ++ (job, (next r).tag job) :: post⟩ :=
  h.turn pre post (a := (job, a)) ((if_pos hok).trans hperform)

/-- They are runs of the machine. -/
lemma Machine.Reachable.unguarded {m : Machine A R σ L α} {ok : L → σ → A → Bool} {start : σ}
    {p : Pool (L × A) (fun x => R x.2) σ L α} (h : (m.guarded ok).Reachable start p) :
    ∃ threads : List (L × Prog A R α), m.Reachable start ⟨p.state, threads⟩ ∧
      p.threads = threads.map fun t => (t.1, t.2.tag t.1) := by
  induction h with
  | start => exact ⟨[], .start, rfl⟩
  | @step p p' _ hstep ih =>
    obtain ⟨threads, hreach, heq⟩ := ih
    cases hstep with
    | arrive s _ job =>
      obtain rfl := heq
      refine ⟨threads ++ [(job, m.main job)], hreach.step (.arrive s threads job), ?_⟩
      rw [List.map_append]
      rfl
    | @turn s s' x r job next pre post hperform =>
      obtain ⟨hok, hperform⟩ := perform_guarded hperform
      obtain ⟨pre', rest, rfl, hpre, hrest⟩ := List.append_eq_map_iff.mp heq
      obtain ⟨⟨job', p⟩, post', rfl, hthread, hpost⟩ := List.map_eq_cons_iff.mp hrest
      obtain ⟨rfl, hp⟩ := Prod.mk.inj hthread
      cases p with
      | ret a => exact absurd hp (by simp [Prog.tag])
      | act a next' =>
        obtain ⟨rfl, hnext⟩ := Prog.act.inj hp
        obtain rfl := eq_of_heq hnext
        refine ⟨pre' ++ (job', next' r) :: post', hreach.step (.turn hperform), ?_⟩
        rw [List.map_append, List.map_cons, hpre, hpost]
    | env henv => exact ⟨threads, hreach.step (.env henv), heq⟩

/-! ## Debts -/

section Debts

variable {D : Type} (owes : (a : A) → R a → Option D) (pays : A → Option D)

/-- What an answer obliges to is paid by the next action, and nothing else is ever paid.  The
program starts with a debt or none. -/
def Prog.Prompt : Option D → Prog A R α → Prop
  | debt, .ret _ => debt = none
  | debt, .act a next => pays a = debt ∧ ∀ r, Prompt (owes a r) (next r)

/-- What the next action of a program pays. -/
def Prog.debt : Prog A R α → Option D
  | .ret _ => none
  | .act a _ => pays a

variable {owes pays}

lemma Prog.Prompt.debt_eq {p : Prog A R α} {d : Option D} (h : p.Prompt owes pays d) :
    p.debt pays = d := by
  cases p with
  | ret a => exact h.symm
  | act a next => exact h.1

lemma Prog.Prompt.bind {p : Prog A R α} {f : α → Prog A R β} {d : Option D}
    (h : p.Prompt owes pays d) (hf : ∀ a, (f a).Prompt owes pays none) :
    (p >>= f).Prompt owes pays d := by
  induction p generalizing d with
  | ret a =>
    obtain rfl := h
    exact hf a
  | act a next ih => exact ⟨h.1, fun r => ih r (h.2 r)⟩

/-- A program without any action that pays or obliges. -/
lemma Prog.Prompt.of_all {Q : A → Prop} {P : α → Prop} {p : Prog A R α}
    (hQ : ∀ a, Q a → pays a = none ∧ ∀ r, owes a r = none) (h : p.All Q P) :
    p.Prompt owes pays none := by
  induction p with
  | ret a => exact rfl
  | act a next ih =>
    obtain ⟨hpays, howes⟩ := hQ a h.1
    refine ⟨hpays, fun r => ?_⟩
    rw [howes r]
    exact ih r (h.2 r)

/-- Every job is prompt about what it owes now. -/
lemma Machine.Reachable.prompt {m : Machine A R σ L α}
    (hmain : ∀ job, (m.main job).Prompt owes pays none) {start : σ} {p : Pool A R σ L α}
    (h : m.Reachable start p) : ∀ t ∈ p.threads, t.2.Prompt owes pays (t.2.debt pays) := by
  induction h with
  | start => exact fun t ht => absurd ht (by simp)
  | @step p p' _ hstep ih =>
    cases hstep with
    | arrive s threads job =>
      intro t ht
      rcases List.mem_append.mp ht with ht | ht
      · exact ih t ht
      · rw [List.mem_singleton.mp ht, (hmain job).debt_eq]
        exact hmain job
    | @turn s s' a r job next pre post hperform =>
      intro t ht
      rcases List.mem_append.mp ht with ht | ht
      · exact ih t (List.mem_append_left _ ht)
      · rcases List.mem_cons.mp ht with rfl | ht
        · have hnext := (ih (job, .act a next) (by simp)).2 r
          rw [hnext.debt_eq]
          exact hnext
        · exact ih t (List.mem_append_right _ (List.mem_cons_of_mem _ ht))
    | env henv => exact ih

end Debts

end RemoteClient

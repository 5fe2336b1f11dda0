/-
# What a program has done

`Trail` goes over a program as `All` does and carries the actions that were performed on the
way, so that a result can be tied to one of them.  In a run, an action of a job was performed,
and what the shared state keeps of it is there from then on (`Reachable.trail`); and what the
state holds was put there for one of the jobs (`Reachable.noted`).
-/
import RemoteClient.Lib.Interleave

namespace RemoteClient

variable {A : Type} {R : A → Type} {σ L α β : Type}

namespace Prog

/-- Every action is a `Q`, and every result is as `P` says of it and the actions before it. -/
def Trail (Q : A → Prop) (P : α → List A → Prop) (past : List A) : Prog A R α → Prop
  | ret a => P a past
  | act a next => Q a ∧ ∀ r, Trail Q P (a :: past) (next r)

variable {Q : A → Prop} {P : α → List A → Prop} {past : List A} {p : Prog A R α}

lemma Trail.bind {P' : β → List A → Prop} {f : α → Prog A R β} (h : p.Trail Q P past)
    (hf : ∀ a past', P a past' → (f a).Trail Q P' past') : (p >>= f).Trail Q P' past := by
  induction p generalizing past with
  | ret a => exact hf a past h
  | act a next ih => exact ⟨h.1, fun r => ih r (h.2 r)⟩

lemma Trail.mono {Q' : A → Prop} {P' : α → List A → Prop} (h : p.Trail Q P past)
    (hQ : ∀ a, Q a → Q' a) (hP : ∀ a past', P a past' → P' a past') : p.Trail Q' P' past := by
  induction p generalizing past with
  | ret a => exact hP a past h
  | act a next ih => exact ⟨hQ a h.1, fun r => ih r (h.2 r)⟩

/-- Nothing that was done is forgotten. -/
lemma Trail.grows (h : p.Trail Q P past) :
    p.Trail Q (fun a past' => past ⊆ past' ∧ P a past') past := by
  induction p generalizing past with
  | ret a => exact ⟨List.Subset.refl past, h⟩
  | act a next ih =>
    refine ⟨h.1, fun r => (ih r (h.2 r)).mono (fun _ hQ => hQ) ?_⟩
    rintro b past' ⟨hsub, hP⟩
    exact ⟨List.Subset.trans (List.subset_cons_self a past) hsub, hP⟩

lemma Trail.all (h : p.Trail Q P past) : p.All Q fun _ => True := by
  induction p generalizing past with
  | ret a => trivial
  | act a next ih => exact ⟨h.1, fun r => ih r (h.2 r)⟩

lemma All.trail {P : α → Prop} (h : p.All Q P) : p.Trail Q (fun a _ => P a) past := by
  induction p generalizing past with
  | ret a => exact h
  | act a next ih => exact ⟨h.1, fun r => ih r (h.2 r)⟩

end Prog

variable {m : Machine A R σ L α} {start : σ} {p : Pool A R σ L α}

/-- **What a job did is kept.**  Every job is on its trail, and the state keeps what it did. -/
theorem Machine.Reachable.trail {Q : L → A → Prop} {P : L → α → List A → Prop}
    (Kept : σ → A → Prop) (hmain : ∀ job, (m.main job).Trail (Q job) (P job) [])
    (hdone : ∀ {s s' a r}, m.perform s a = .ok (r, s') → Kept s' a)
    (hkept : ∀ {s s' a r b}, m.perform s a = .ok (r, s') → Kept s b → Kept s' b)
    (henv : ∀ {s s' b}, m.env s s' → Kept s b → Kept s' b) (h : m.Reachable start p) :
    ∀ t ∈ p.threads, ∃ past, t.2.Trail (Q t.1) (P t.1) past ∧ ∀ a ∈ past, Kept p.state a := by
  induction h with
  | start => exact fun t ht => absurd ht (by simp)
  | @step p p' _ hstep ih =>
    cases hstep with
    | arrive s threads job =>
      intro t ht
      rcases List.mem_append.mp ht with ht | ht
      · exact ih t ht
      · rw [List.mem_singleton.mp ht]
        exact ⟨[], hmain job, fun a ha => absurd ha (by simp)⟩
    | @turn s s' a r job next pre post hperform =>
      have hother : ∀ t ∈ pre ++ (job, .act a next) :: post, ∃ past,
          t.2.Trail (Q t.1) (P t.1) past ∧ ∀ b ∈ past, Kept s' b := by
        intro t ht
        obtain ⟨past, htrail, hpast⟩ := ih t ht
        exact ⟨past, htrail, fun b hb => hkept hperform (hpast b hb)⟩
      intro t ht
      rcases List.mem_append.mp ht with ht | ht
      · exact hother t (List.mem_append_left _ ht)
      · rcases List.mem_cons.mp ht with rfl | ht
        · obtain ⟨past, htrail, hpast⟩ := hother (job, .act a next) (by simp)
          refine ⟨a :: past, htrail.2 r, fun b hb => ?_⟩
          rcases List.mem_cons.mp hb with rfl | hb
          · exact hdone hperform
          · exact hpast b hb
        · exact hother t (List.mem_append_right _ (List.mem_cons_of_mem _ ht))
    | env hstep =>
      intro t ht
      obtain ⟨past, htrail, hpast⟩ := ih t ht
      exact ⟨past, htrail, fun b hb => henv hstep (hpast b hb)⟩

/-- Every job only takes the actions of its program. -/
lemma Machine.Reachable.all {Q : L → A → Prop}
    (hmain : ∀ job, (m.main job).All (Q job) fun _ => True) (h : m.Reachable start p) :
    ∀ t ∈ p.threads, t.2.All (Q t.1) fun _ => True := by
  intro t ht
  obtain ⟨past, htrail, -⟩ := h.trail (fun _ _ => True) (fun job => (hmain job).trail)
    (fun _ => trivial) (fun _ _ => trivial) (fun _ _ => trivial) t ht
  exact htrail.all

/-- **What is noted was noted for a job.**  Every action notes only what its job asks for. -/
theorem Machine.Reachable.noted {N : Type} (Notes : σ → N → Prop) (Asks : L → N → Prop)
    (hmain : ∀ job, (m.main job).All (fun a => ∀ {s r s' n}, m.perform s a = .ok (r, s') →
      Notes s' n → Notes s n ∨ Asks job n) fun _ => True)
    (henv : ∀ {s s' n}, m.env s s' → Notes s' n → Notes s n) (hstart : ∀ n, ¬Notes start n)
    (h : m.Reachable start p) {n : N} (hn : Notes p.state n) : ∃ t ∈ p.threads, Asks t.1 n := by
  induction h with
  | start => exact absurd hn (hstart n)
  | @step p p' h hstep ih =>
    cases hstep with
    | arrive s threads job =>
      obtain ⟨t, ht, hasks⟩ := ih hn
      exact ⟨t, List.mem_append_left _ ht, hasks⟩
    | @turn s s' a r job next pre post hperform =>
      have hturn : (job, Prog.act a next) ∈ pre ++ (job, .act a next) :: post := by simp
      rcases (h.all hmain _ hturn).1 hperform hn with hold | hasks
      · obtain ⟨t, ht, hasks⟩ := ih hold
        rcases List.mem_append.mp ht with ht | ht
        · exact ⟨t, List.mem_append_left _ ht, hasks⟩
        · rcases List.mem_cons.mp ht with rfl | ht
          · exact ⟨(job, next r), by simp, hasks⟩
          · exact ⟨t, List.mem_append_right _ (List.mem_cons_of_mem _ ht), hasks⟩
      · exact ⟨(job, next r), by simp, hasks⟩
    | env hstep =>
      exact ih (henv hstep hn)

end RemoteClient

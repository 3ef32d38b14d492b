/-
# `MnApp.Lib.Run` — runs of a system, action by action

A system is a state and a step function: `step s a` is the state after
action `a`, or `none` when `a` is not enabled in `s`.  A run is a list of
actions, in any order the guards allow, and `exec` is where it leads.

    Meets C s as    every action of the run meets `C`, in the state before it
    Along P s as    every state of the run has `P`, the first and the last
                    included
    collect f s as  what the actions of the run bring about, in order

What is assumed about a run is a `Meets`, what is shown about it is an
`Along`, and there are two rules from one to the other:

    an invariant, kept by every action that meets `C`   (`exec_invariant`,
                                                         `along_of_meets`)
    an action that does not meet `C` leads out of `P`   (`meets_of_along`)

Nothing here is about a particular system.
-/
import Mathlib.Data.List.Basic

namespace Run

section
variable {σ α : Type} (step : σ → α → Option σ)

/-- The state after a run, if all its actions are enabled in turn. -/
def exec : σ → List α → Option σ
  | s, [] => some s
  | s, a :: as => (step s a).bind fun s' => exec s' as

/-- Every action of the run meets the condition, in the state before it. -/
def Meets (C : σ → α → Prop) : σ → List α → Prop
  | _, [] => True
  | s, a :: as => C s a ∧ ∀ s' ∈ step s a, Meets C s' as

/-- Every state of the run has the property. -/
def Along (P : σ → Prop) : σ → List α → Prop
  | s, [] => P s
  | s, a :: as => P s ∧ ∀ s' ∈ step s a, Along P s' as

/-- What the actions of a run bring about, in order. -/
def collect {β : Type} (f : σ → α → List β) : σ → List α → List β
  | _, [] => []
  | s, a :: as => f s a ++ ((step s a).elim [] fun s' => collect f s' as)

instance decidableMeets (C : σ → α → Prop) [∀ s a, Decidable (C s a)] :
    (s : σ) → (as : List α) → Decidable (Meets step C s as)
  | _, [] => isTrue trivial
  | s, a :: as =>
      have : ∀ s', Decidable (Meets step C s' as) := fun s' => decidableMeets C s' as
      inferInstanceAs (Decidable (C s a ∧ ∀ s' ∈ step s a, Meets step C s' as))

variable {step}

theorem exec_cons {s t : σ} {a : α} {as : List α} (h : exec step s (a :: as) = some t) :
    ∃ s', step s a = some s' ∧ exec step s' as = some t := Option.bind_eq_some_iff.mp h

theorem exec_append {s : σ} {as bs : List α} :
    exec step s (as ++ bs) = (exec step s as).bind fun t => exec step t bs := by
  induction as generalizing s with
  | nil => rfl
  | cons a as ih =>
      simp only [List.cons_append, exec]
      cases step s a with
      | none => rfl
      | some s' => exact ih

theorem Along.first {P : σ → Prop} {s : σ} {as : List α} (h : Along step P s as) : P s := by
  cases as with
  | nil => exact h
  | cons a as => exact h.1

theorem Along.last {P : σ → Prop} {s t : σ} {as : List α} (h : Along step P s as)
    (he : exec step s as = some t) : P t := by
  induction as generalizing s with
  | nil =>
      cases he
      exact h
  | cons a as ih =>
      obtain ⟨s', hs, he'⟩ := exec_cons he
      exact ih (h.2 s' hs) he'

theorem meets_of_stateless {C : σ → α → Prop} {D : α → Prop} {s : σ} {as : List α}
    (h : ∀ a ∈ as, D a) (hC : ∀ s a, D a → C s a) : Meets step C s as := by
  induction as generalizing s with
  | nil => trivial
  | cons a as ih =>
      exact ⟨hC s a (h a List.mem_cons_self),
        fun _ _ => ih fun b hb => h b (List.mem_cons_of_mem _ hb)⟩

theorem Meets.forall_of_exec {C : α → Prop} {s t : σ} {as : List α}
    (h : Meets step (fun _ a => C a) s as) (he : exec step s as = some t) : ∀ a ∈ as, C a := by
  induction as generalizing s with
  | nil => exact fun _ ha => by cases ha
  | cons a as ih =>
      obtain ⟨s', hs, he'⟩ := exec_cons he
      intro b hb
      rcases List.mem_cons.mp hb with rfl | hb
      · exact h.1
      · exact ih (h.2 s' hs) he' b hb

/-- The invariant rule. -/
theorem exec_invariant {C : σ → α → Prop} {I : σ → Prop}
    (keep : ∀ s a s', I s → C s a → step s a = some s' → I s') {as : List α} {s t : σ}
    (h : I s) (hm : Meets step C s as) (he : exec step s as = some t) : I t := by
  induction as generalizing s with
  | nil =>
      cases he
      exact h
  | cons a as ih =>
      obtain ⟨s', hs, he'⟩ := exec_cons he
      exact ih (keep s a s' h hm.1 hs) (hm.2 s' hs) he'

/-- The invariant rule, for what an invariant says of every state. -/
theorem along_of_meets {C : σ → α → Prop} {I P : σ → Prop}
    (keep : ∀ s a s', I s → C s a → step s a = some s' → I s') (hP : ∀ s, I s → P s)
    {as : List α} {s : σ} (h : I s) (hm : Meets step C s as) : Along step P s as := by
  induction as generalizing s with
  | nil => exact hP s h
  | cons a as ih =>
      exact ⟨hP s h, fun s' hs => ih (keep s a s' h hm.1 hs) (hm.2 s' hs)⟩

theorem exec_always {I : σ → Prop} (keep : ∀ s a s', I s → step s a = some s' → I s')
    {as : List α} {s t : σ} (h : I s) (he : exec step s as = some t) : I t := by
  induction as generalizing s with
  | nil =>
      cases he
      exact h
  | cons a as ih =>
      obtain ⟨s', hs, he'⟩ := exec_cons he
      exact ih (keep s a s' h hs) he'

/-- The invariant rule, for an invariant about what a run brings about. -/
theorem exec_collect {β : Type} {f : σ → α → List β} {I : σ → List β → Prop}
    (keep : ∀ s a s' bs, I s bs → step s a = some s' → I s' (bs ++ f s a))
    {as : List α} {s t : σ} {bs : List β} (h : I s bs) (he : exec step s as = some t) :
    I t (bs ++ collect step f s as) := by
  induction as generalizing s bs with
  | nil =>
      cases he
      rw [collect, List.append_nil]
      exact h
  | cons a as ih =>
      obtain ⟨s', hs, he'⟩ := exec_cons he
      rw [collect, hs, Option.elim_some, ← List.append_assoc]
      exact ih (keep s a s' bs h hs) he'

/-- A run that keeps to `P` has no action that would leave it. -/
theorem meets_of_along {C : σ → α → Prop} {I P : σ → Prop}
    (keep : ∀ s a s', I s → C s a → step s a = some s' → I s')
    (leaves : ∀ s a s', I s → step s a = some s' → P s' → C s a)
    {as : List α} {s t : σ} (h : I s) (he : exec step s as = some t)
    (ha : Along step P s as) : Meets step C s as := by
  induction as generalizing s with
  | nil => trivial
  | cons a as ih =>
      obtain ⟨s', hs, he'⟩ := exec_cons he
      have hrest := ha.2 s' hs
      have hC := leaves s a s' h hs hrest.first
      refine ⟨hC, fun u hu => ?_⟩
      cases Option.some.inj (hs.symm.trans hu)
      exact ih (keep s a s' h hC hs) he' hrest

end

end Run

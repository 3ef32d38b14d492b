/-
# `MnApp.Lib.Loop` — loops that may not stop, run with fuel

A `while` loop is a step function: one step either goes round again with a
new state or leaves with a result.  `run` iterates it with fuel; `Returns`
is "some fuel is enough", so a statement that a loop returns says that it
stops.  `Reaches` is the path between two states of one run, and it is what
the phases of a longer argument are stated with:

    Reaches s t,  Returns t r   ⟹   Returns s r        (`Reaches.returns`)
    Returns s r,  Returns s r'  ⟹   r = r'             (`Returns.unique`)
    a property every step keeps holds where the run leaves
                                                      (`Returns.invariant`)
    every step goes down in a well-founded order   ⟹  the loop stops
                                                      (`returns_of_decreasing`)
    every state has a next one                     ⟹  it does not
                                                      (`not_returns_of_forever`)
    a step of one run is a step of the other       ⟹  so is the run
                                                      (`Returns.simulate`)

Nothing here is about a particular program.
-/
import Mathlib.Data.List.Basic

namespace Loop

/-- What one step of a loop does. -/
inductive Next (σ ρ : Type) where
  | again (s : σ)
  | done (r : ρ)

section
variable {σ ρ : Type} (step : σ → Next σ ρ)

/-- The loop, with fuel; `none` means the fuel was not enough. -/
def run : Nat → σ → Option ρ
  | 0, _ => none
  | n + 1, s =>
      match step s with
      | .again s' => run n s'
      | .done r => some r

/-- The loop, started in `s`, stops with result `r`. -/
def Returns (s : σ) (r : ρ) : Prop := ∃ n, run step n s = some r

/-- Zero or more steps lead from one state to another. -/
inductive Reaches : σ → σ → Prop
  | refl (s : σ) : Reaches s s
  | head {s s' t : σ} : step s = .again s' → Reaches s' t → Reaches s t

variable {step}

theorem Reaches.single {s t : σ} (h : step s = .again t) : Reaches step s t :=
  .head h (.refl t)

theorem Reaches.trans {s t u : σ} (h₁ : Reaches step s t) (h₂ : Reaches step t u) :
    Reaches step s u := by
  induction h₁ with
  | refl _ => exact h₂
  | head hs _ ih => exact .head hs (ih h₂)

theorem Returns.of_done {s : σ} {r : ρ} (h : step s = .done r) : Returns step s r :=
  ⟨1, by simp only [run, h]⟩

theorem Returns.of_again {s t : σ} {r : ρ} (h : step s = .again t) (ht : Returns step t r) :
    Returns step s r := by
  obtain ⟨n, hn⟩ := ht
  exact ⟨n + 1, by simp only [run, h, hn]⟩

theorem Reaches.returns {s t : σ} {r : ρ} (h : Reaches step s t) (ht : Returns step t r) :
    Returns step s r := by
  induction h with
  | refl _ => exact ht
  | head hs _ ih => exact .of_again hs (ih ht)

/-- Induction over a run that stops: every state on the way, last one first. -/
theorem Returns.rec_run {r : ρ} {P : σ → Prop}
    (done : ∀ s, step s = .done r → P s)
    (again : ∀ s t, step s = .again t → Returns step t r → P t → P s)
    {s : σ} (h : Returns step s r) : P s := by
  obtain ⟨n, hn⟩ := h
  induction n generalizing s with
  | zero => exact absurd hn (by simp [run])
  | succ n ih =>
      cases hs : step s with
      | done r' =>
          simp only [run, hs, Option.some.injEq] at hn
          subst hn
          exact done s hs
      | again t =>
          simp only [run, hs] at hn
          exact again s t hs ⟨n, hn⟩ (ih hn)

theorem Returns.unique {s : σ} {r r' : ρ} (h : Returns step s r) (h' : Returns step s r') :
    r = r' := by
  refine Returns.rec_run (P := fun s => ∀ r', Returns step s r' → r = r') ?_ ?_ h r' h'
  · rintro s hs r' ⟨n, hn⟩
    cases n with
    | zero => exact absurd hn (by simp [run])
    | succ n => simpa [run, hs] using hn
  · rintro s t hs _ ih r' ⟨n, hn⟩
    cases n with
    | zero => exact absurd hn (by simp [run])
    | succ n => exact ih r' ⟨n, by simpa [run, hs] using hn⟩

/-- A result reached from a later state of the run is the result of the run. -/
theorem Reaches.returns_iff {s t : σ} {r : ρ} (h : Reaches step s t) :
    Returns step s r ↔ Returns step t r := by
  refine ⟨fun hs => ?_, h.returns⟩
  induction h with
  | refl _ => exact hs
  | head hst _ ih =>
      apply ih
      obtain ⟨n, hn⟩ := hs
      cases n with
      | zero => exact absurd hn (by simp [run])
      | succ n => exact ⟨n, by simpa [run, hst] using hn⟩

/-- The invariant rule: what every step keeps holds in the state the run
leaves from. -/
theorem Returns.invariant {I : σ → Prop} {s : σ} {r : ρ}
    (keep : ∀ s t, I s → step s = .again t → I t)
    (h : Returns step s r) (h₀ : I s) : ∃ t, I t ∧ step t = .done r := by
  refine Returns.rec_run (P := fun s => I s → ∃ t, I t ∧ step t = .done r) ?_ ?_ h h₀
  · intro s hs hi
    exact ⟨s, hi, hs⟩
  · intro s t hs _ ih hi
    exact ih (keep s t hi hs)

/-- The invariant rule for the first part of a run, up to a state in `E`. -/
theorem Returns.until {I E : σ → Prop} {s : σ} {r : ρ}
    (keep : ∀ s t, I s → ¬ E s → step s = .again t → I t)
    (h : Returns step s r) (h₀ : I s) :
    (∃ t, I t ∧ E t ∧ Returns step t r) ∨ ∃ t, I t ∧ ¬ E t ∧ step t = .done r := by
  refine Returns.rec_run (P := fun s => I s → _) ?_ ?_ h h₀
  · intro s hs hi
    by_cases he : E s
    · exact .inl ⟨s, hi, he, .of_done hs⟩
    · exact .inr ⟨s, hi, he, hs⟩
  · intro s t hs ht ih hi
    by_cases he : E s
    · exact .inl ⟨s, hi, he, .of_again hs ht⟩
    · exact ih (keep s t hi he hs)

/-- What every step keeps holds in every state of the run. -/
theorem Reaches.invariant {I : σ → Prop} (keep : ∀ s t, I s → step s = .again t → I t)
    {s t : σ} (h : Reaches step s t) (h₀ : I s) : I t := by
  induction h with
  | refl _ => exact h₀
  | head hs _ ih => exact ih (keep _ _ h₀ hs)

/-- The state after a number of steps, if the loop has not left before. -/
def steps (step : σ → Next σ ρ) : Nat → σ → Option σ
  | 0, s => some s
  | n + 1, s =>
      match step s with
      | .again s' => steps step n s'
      | .done _ => none

theorem reaches_of_steps {n : Nat} {s t : σ} (h : steps step n s = some t) :
    Reaches step s t := by
  induction n generalizing s with
  | zero =>
      cases h
      exact .refl _
  | succ n ih =>
      unfold steps at h
      split at h
      · rename_i hs
        exact .head hs (ih h)
      · cases h

theorem steps_succ {n : Nat} {s t : σ} :
    steps step (n + 1) s = some t ↔ ∃ u, steps step n s = some u ∧ step u = .again t := by
  induction n generalizing s with
  | zero => cases hs : step s <;> simp [steps, hs]
  | succ n ih =>
      cases hs : step s with
      | again s' =>
          have hfirst : ∀ m, steps step (m + 1) s = steps step m s' := fun m => by
            simp only [steps, hs]
          rw [hfirst (n + 1), hfirst n]
          exact ih
      | done r => simp [steps, hs]

theorem steps_of_le {m n : Nat} (hle : m ≤ n) {s t : σ} (h : steps step n s = some t) :
    ∃ u, steps step m s = some u := by
  induction hle generalizing t with
  | refl => exact ⟨t, h⟩
  | step _ ih =>
      obtain ⟨u, hu, -⟩ := steps_succ.mp h
      exact ih hu

/-- The termination rule. -/
theorem returns_of_decreasing {α : Type} {lt : α → α → Prop} (hwf : WellFounded lt)
    (measure : σ → α) {I : σ → Prop}
    (keep : ∀ s t, I s → step s = .again t → I t ∧ lt (measure t) (measure s))
    {s : σ} (h : I s) : ∃ r, Returns step s r := by
  induction hm : measure s using hwf.induction generalizing s with
  | _ m ih =>
      cases hs : step s with
      | done r => exact ⟨r, .of_done hs⟩
      | again t =>
          obtain ⟨ht, hlt⟩ := keep s t h hs
          obtain ⟨r, hr⟩ := ih (measure t) (hm ▸ hlt) ht rfl
          exact ⟨r, .of_again hs hr⟩

theorem not_returns_of_forever {I : σ → Prop}
    (next : ∀ s, I s → ∃ t, step s = .again t ∧ I t) {s : σ} (h : I s) (r : ρ) :
    ¬ Returns step s r := by
  intro hret
  have hkeep : ∀ s t, I s → step s = .again t → I t := fun s t hi hst => by
    obtain ⟨t', hs', ht'⟩ := next s hi
    cases hst.symm.trans hs'
    exact ht'
  obtain ⟨t, ht, hdone⟩ := hret.invariant hkeep h
  obtain ⟨t', ht', -⟩ := next t ht
  cases hdone.symm.trans ht'

/-! ## Two runs -/

section
variable {σ' ρ' : Type} {step' : σ' → Next σ' ρ'} {R : σ → σ' → Prop} {Q : ρ → ρ' → Prop}

/-- The simulation rule: what one loop does step by step, the other does too,
and so they stop alike. -/
theorem Returns.simulate
    (again : ∀ s u t, R s u → step s = .again t → ∃ v, step' u = .again v ∧ R t v)
    (done : ∀ s u r, R s u → step s = .done r → ∃ r', step' u = .done r' ∧ Q r r')
    {s : σ} {u : σ'} {r : ρ} (h : Returns step s r) (hR : R s u) :
    ∃ r', Returns step' u r' ∧ Q r r' := by
  refine Returns.rec_run (P := fun s => ∀ u, R s u → ∃ r', Returns step' u r' ∧ Q r r') ?_ ?_ h u
    hR
  · intro s hs u hR
    obtain ⟨r', hr', hQ⟩ := done s u r hR hs
    exact ⟨r', .of_done hr', hQ⟩
  · intro s t hs _ ih u hR
    obtain ⟨v, hv, hR'⟩ := again s u t hR hs
    obtain ⟨r', hr', hQ⟩ := ih v hR'
    exact ⟨r', .of_again hv hr', hQ⟩

theorem Reaches.simulate
    (again : ∀ s u t, R s u → step s = .again t → ∃ v, step' u = .again v ∧ R t v)
    {s t : σ} {u : σ'} (h : Reaches step s t) (hR : R s u) : ∃ v, Reaches step' u v ∧ R t v := by
  induction h generalizing u with
  | refl s => exact ⟨u, .refl u, hR⟩
  | head hs _ ih =>
      obtain ⟨v, hv, hR'⟩ := again _ _ _ hR hs
      obtain ⟨w, hw, hR''⟩ := ih hR'
      exact ⟨w, .head hv hw, hR''⟩

end

/-! ## Watched runs -/

section
variable {ε : Type} (step : σ → Next σ ρ) (emit : σ → List ε)

/-- A run, with what its steps have emitted. -/
inductive Watched : σ → List ε → σ → Prop
  | refl (s : σ) : Watched s [] s
  | snoc {s t u : σ} {es : List ε} (run : Watched s es t) (next : step t = .again u) :
      Watched s (es ++ emit t) u

/-- The whole of a run that stops within `n` steps, state by state. -/
def watch : Nat → List ε → σ → List (List ε × σ)
  | 0, _, _ => []
  | n + 1, es, s =>
      (es, s) :: match step s with
        | .again t => watch n (es ++ emit s) t
        | .done _ => []

/-- What a run of at most `n` steps emits, its last step included. -/
def emitted : Nat → σ → List ε
  | 0, _ => []
  | n + 1, s =>
      emit s ++ match step s with
        | .again t => emitted n t
        | .done _ => []

variable {step emit}

theorem emitted_again {n : Nat} {s t : σ} (h : step s = .again t) :
    emitted step emit (n + 1) s = emit s ++ emitted step emit n t := by
  rw [emitted, h]

theorem emitted_done {n : Nat} {s : σ} {r : ρ} (h : step s = .done r) :
    emitted step emit (n + 1) s = emit s := by
  rw [emitted, h, List.append_nil]

/-- The rule for what is emitted. -/
theorem Watched.invariant {I : σ → List ε → Prop} {s t : σ} {es : List ε}
    (keep : ∀ t u es, Watched step emit s es t → I t es → step t = .again u → I u (es ++ emit t))
    (h₀ : I s []) (h : Watched step emit s es t) : I t es := by
  induction h with
  | refl => exact h₀
  | snoc run next ih => exact keep _ _ _ run ih next

theorem Watched.head {s u t : σ} {es : List ε} (hs : step s = .again u)
    (h : Watched step emit u es t) : Watched step emit s (emit s ++ es) t := by
  induction h with
  | refl => simpa using Watched.snoc (.refl s) hs
  | snoc _ next ih =>
      rw [← List.append_assoc]
      exact .snoc ih next

theorem Watched.cases_head {s t : σ} {es : List ε} (h : Watched step emit s es t) :
    (es = [] ∧ t = s) ∨
      ∃ u es', step s = .again u ∧ es = emit s ++ es' ∧ Watched step emit u es' t := by
  induction h with
  | refl => exact .inl ⟨rfl, rfl⟩
  | @snoc t v es run next ih =>
      right
      rcases ih with ⟨rfl, rfl⟩ | ⟨u, es', hs, rfl, hrun⟩
      · exact ⟨v, [], next, by simp, .refl v⟩
      · exact ⟨u, es' ++ emit t, hs, by simp, hrun.snoc next⟩

theorem Watched.reaches {s t : σ} {es : List ε} (h : Watched step emit s es t) :
    Reaches step s t := by
  induction h with
  | refl => exact .refl _
  | snoc _ next ih => exact ih.trans (.head next (.refl _))

theorem Reaches.watched {s t : σ} (h : Reaches step s t) (emit : σ → List ε) :
    ∃ es, Watched step emit s es t := by
  induction h with
  | refl s => exact ⟨[], .refl s⟩
  | head hs _ ih =>
      obtain ⟨es, hes⟩ := ih
      exact ⟨_, hes.head hs⟩

theorem mem_watch {n : Nat} {s t : σ} {r : ρ} {es : List ε} (hrun : run step n s = some r)
    (h : Watched step emit s es t) (acc : List ε) : (acc ++ es, t) ∈ watch step emit n acc s := by
  induction n generalizing s es acc with
  | zero => cases hrun
  | succ n ih =>
      rw [watch]
      rcases h.cases_head with ⟨rfl, rfl⟩ | ⟨u, es', hs, rfl, hrest⟩
      · rw [List.append_nil]
        exact List.mem_cons_self
      · rw [run, hs] at hrun
        rw [hs, ← List.append_assoc]
        exact List.mem_cons_of_mem _ (ih hrun hrest _)

theorem watched_of_mem {n : Nat} {s t : σ} {es acc : List ε}
    (h : (es, t) ∈ watch step emit n acc s) :
    ∃ es', es = acc ++ es' ∧ Watched step emit s es' t := by
  induction n generalizing s acc with
  | zero => cases h
  | succ n ih =>
      rw [watch] at h
      rcases List.mem_cons.mp h with heq | h
      · cases heq
        exact ⟨[], by simp, .refl _⟩
      · split at h
        · rename_i u hs
          obtain ⟨es', rfl, hrun⟩ := ih h
          exact ⟨emit s ++ es', by simp, hrun.head hs⟩
        · cases h

end

end

end Loop
